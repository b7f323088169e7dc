import Mathlib.Data.List.Nodup
import LibAtrinik.PunchPacer
import LibAtrinik.SocketRendezvousParse

namespace LibAtrinik.Punch

open Rendezvous

def socketDirectMaxCandidates : ℕ := 12
def socketPunchDrainMax : ℕ := 32

/-- `socket_punch_job_t`. -/
structure SocketPunchJob where
  candidate : SocketDirectCandidate := { host := [], port := 0, kind := .lan }
  pacer : SocketPunchPacer := {}
deriving DecidableEq, Repr, Inhabited

/-- What `socket_udp_punch_receive` stores when it succeeds: the host fits into its buffer. -/
structure Probe where
  host : List Char
  port : UInt16
  fits : host.length < 65

def socketCandidateAdd (candidates : List SocketDirectCandidate) (capacity : ℕ) (host : List Char)
    (port : UInt16) (kind : SocketCandidateKind) : Bool × List SocketDirectCandidate :=
  if candidates.any fun c => c.port = port ∧ c.host = host then (true, candidates)
  else if candidates.length ≥ capacity then (false, candidates)
  else (true, candidates ++ [{ host := snprintf 65 host, port := port, kind := kind }])

/-- The loop of `socket_udp_punch_schedule` from the slot `i` on: `none` when there is an active
job for the endpoint, else the first free slot. -/
def scheduleLoop (candidate : SocketDirectCandidate) :
    List SocketPunchJob → ℕ → Option ℕ → Option (Option ℕ)
  | [], _, available => some available
  | job :: jobs, i, available =>
    if job.pacer.active = true ∧ job.candidate.port = candidate.port ∧
        job.candidate.host = candidate.host then none
    else
      scheduleLoop candidate jobs (i+1)
        (if job.pacer.active = false ∧ available = none then some i else available)

def socketUdpPunchSchedule (jobs : List SocketPunchJob) (candidate : SocketDirectCandidate)
    (nowMs : UInt64) : List SocketPunchJob :=
  if candidate.kind ≠ .mapped ∧ candidate.kind ≠ .srflx then jobs
  else
    match scheduleLoop candidate jobs 0 none with
    | none => jobs
    | some none => jobs
    | some (some i) =>
      jobs.set i {
        candidate := candidate
        pacer := socketPunchPacerStart (jobs.getD i default).pacer nowMs 0 }

/-- The jobs and the counters of `socket_udp_punch_update`; `punch` says whether a probe could be
sent. -/
def socketUdpPunchUpdate (now : UInt64) (punch : List Char → UInt16 → Bool) :
    List SocketPunchJob → UInt32 → UInt32 → List SocketPunchJob × UInt32 × UInt32
  | [], attempts, successful => ([], attempts, successful)
  | job :: jobs, attempts, successful =>
    let action := socketPunchPacerPoll job.pacer now
    let advanced := { job with pacer := socketPunchPacerAdvance job.pacer now action }
    match action with
    | .wait =>
      let r := socketUdpPunchUpdate now punch jobs attempts successful
      (job :: r.1, r.2)
    | .complete =>
      let r := socketUdpPunchUpdate now punch jobs attempts successful
      (advanced :: r.1, r.2)
    | .send =>
      let reached := punch job.candidate.host job.candidate.port
      let r := socketUdpPunchUpdate now punch jobs (attempts+1)
        (if reached then successful+1 else successful)
      (advanced :: r.1, r.2)

/-- The scan of `socket_udp_punch_collect`: whether the endpoint is recorded, whether a
peer-reflexive candidate has been seen up to there, and the candidates. -/
def collectScan (host : List Char) (port : UInt16) :
    List SocketDirectCandidate → Bool → Bool × Bool × List SocketDirectCandidate
  | [], hasPeerReflexive => (false, hasPeerReflexive, [])
  | c :: candidates, hasPeerReflexive =>
    let hasPeerReflexive := hasPeerReflexive || c.kind = .prflx
    if c.port = port ∧ c.host = host then
      (true, hasPeerReflexive,
        (if c.kind ≠ .prflx then { c with kind := .prflx } else c) :: candidates)
    else
      let r := collectScan host port candidates hasPeerReflexive
      (r.1, r.2.1, c :: r.2.2)

/-- What one received probe does. -/
def collectProbe (capacity : ℕ) (candidates : List SocketDirectCandidate) (probe : Probe) :
    List SocketDirectCandidate :=
  let r := collectScan probe.host probe.port candidates false
  if r.1 || r.2.1 then r.2.2
  else (socketCandidateAdd r.2.2 capacity probe.host probe.port .prflx).2

/-- `probes` are those that wait in the socket. No more than `SOCKET_PUNCH_DRAIN_MAX` are taken. -/
def socketUdpPunchCollect (capacity : ℕ) (candidates : List SocketDirectCandidate)
    (probes : List Probe) : ℕ × List SocketDirectCandidate :=
  let drained := probes.take socketPunchDrainMax
  (drained.length, drained.foldl (collectProbe capacity) candidates)

/-- The variables of `socket_rendezvous_client` while it waits. -/
structure ClientState where
  candidates : List SocketDirectCandidate := []
  punchJobs : List SocketPunchJob := List.replicate socketDirectMaxCandidates default
  punchAttempts : UInt32 := 0
  punchesSent : UInt32 := 0
  punchesReceived : ℕ := 0

/-- What the loop of `socket_rendezvous_client` does in its rounds, with what it meets there. -/
inductive ClientEvent where
  | update (nowMs : UInt64) (punch : List Char → UInt16 → Bool)
  | collect (probes : List Probe)
  | message (response : List Char) (nowMs : UInt64)

def ClientState.step (p : Platform) (ticket : List Char) (capacity : ℕ) (s : ClientState) :
    ClientEvent → ClientState
  | .update nowMs punch =>
    let r := socketUdpPunchUpdate nowMs punch s.punchJobs s.punchAttempts s.punchesSent
    { s with punchJobs := r.1, punchAttempts := r.2.1, punchesSent := r.2.2 }
  | .collect probes =>
    let r := socketUdpPunchCollect capacity s.candidates probes
    { s with candidates := r.2, punchesReceived := s.punchesReceived+r.1 }
  | .message response nowMs =>
    match socketRendezvousServerCandidateParse p (some response) (some ticket) true with
    | none => s
    | some parsed =>
      { s with
        candidates :=
          (socketCandidateAdd s.candidates capacity parsed.host parsed.port parsed.kind).2
        punchJobs := socketUdpPunchSchedule s.punchJobs parsed nowMs }

def ClientState.run (p : Platform) (ticket : List Char) (capacity : ℕ) (s : ClientState)
    (events : List ClientEvent) : ClientState :=
  events.foldl (ClientState.step p ticket capacity) s

/-- What must not occur twice. -/
def endpoint (c : SocketDirectCandidate) : UInt16 × List Char := (c.port, c.host)

/-- No entry is removed or moved, and none is changed but for a kind that becomes
peer-reflexive. -/
def Kept (old new : List SocketDirectCandidate) : Prop :=
  ∀ (i : ℕ) (c : SocketDirectCandidate), old[i]? = some c →
    new[i]? = some c ∨ new[i]? = some { c with kind := .prflx }

/-- At most one active job for each endpoint. -/
def OneActive (jobs : List SocketPunchJob) : Prop :=
  ∀ (i j : ℕ) (a b : SocketPunchJob), jobs[i]? = some a → jobs[j]? = some b →
    a.pacer.active = true → b.pacer.active = true →
    endpoint a.candidate = endpoint b.candidate → i = j

/-- What holds of the candidates at every moment. -/
structure Collected (capacity : ℕ) (candidates : List SocketDirectCandidate) : Prop where
  nodup : (candidates.map endpoint).Nodup
  count : candidates.length ≤ capacity

theorem Kept.refl (candidates : List SocketDirectCandidate) : Kept candidates candidates :=
  fun _ _ h => Or.inl h

theorem Kept.trans {a b c : List SocketDirectCandidate} (hab : Kept a b) (hbc : Kept b c) :
    Kept a c := by
  intro i entry h
  rcases hab i entry h with hb | hb
  · exact hbc i entry hb
  · exact Or.inr ((hbc i _ hb).elim id id)

theorem kept_append (candidates added : List SocketDirectCandidate) :
    Kept candidates (candidates ++ added) := by
  intro i c h
  rw [List.getElem?_append_left (List.getElem?_eq_some_iff.mp h).1]
  exact Or.inl h

/-- An entry with an endpoint and a host that fits is added once, if there is room. -/
theorem socketCandidateAdd_spec (capacity : ℕ) (candidates : List SocketDirectCandidate)
    (h : Collected capacity candidates) (host : List Char) (port : UInt16)
    (kind : SocketCandidateKind) (hfits : host.length < 65) :
    Collected capacity (socketCandidateAdd candidates capacity host port kind).2 ∧
      Kept candidates (socketCandidateAdd candidates capacity host port kind).2 := by
  unfold socketCandidateAdd
  split_ifs with hknown hfull
  · exact ⟨h, Kept.refl _⟩
  · exact ⟨h, Kept.refl _⟩
  · have hhost : snprintf 65 host = host := List.take_of_length_le (by omega)
    refine ⟨⟨?_, ?_⟩, kept_append _ _⟩
    · -- the test for duplicates compares the host before it is cut, and this one is not cut
      rw [hhost, List.map_append, List.map_singleton, ← List.concat_eq_append]
      refine h.nodup.concat ?_
      intro hmem
      obtain ⟨c, hc, he⟩ := List.mem_map.mp hmem
      refine hknown (List.any_eq_true.mpr ⟨c, hc, ?_⟩)
      simpa [endpoint] using he
    · rw [List.length_append, List.length_singleton]
      omega

/-- The scan changes no endpoint, and the kind of at most one entry. -/
theorem collectScan_spec (host : List Char) (port : UInt16)
    (candidates : List SocketDirectCandidate) (has : Bool) :
    (collectScan host port candidates has).2.2.map endpoint = candidates.map endpoint ∧
      Kept candidates (collectScan host port candidates has).2.2 := by
  induction candidates generalizing has with
  | nil => exact ⟨rfl, Kept.refl _⟩
  | cons c candidates ih =>
    unfold collectScan
    dsimp only
    -- the scan stops at the entry of the sender, and a kind only changes there
    split_ifs with hfound hkind
    · refine ⟨rfl, ?_⟩
      intro i entry h
      cases i with
      | zero =>
        obtain rfl : c = entry := by simpa using h
        exact Or.inr rfl
      | succ i => exact Or.inl h
    · exact ⟨rfl, Kept.refl _⟩
    · obtain ⟨hmap, hkept⟩ := ih (has || c.kind = .prflx)
      refine ⟨by rw [List.map_cons, List.map_cons, hmap], ?_⟩
      intro i entry h
      cases i with
      | zero => exact Or.inl h
      | succ i => exact hkept i entry h

theorem Collected.of_endpoints {capacity : ℕ} {old new : List SocketDirectCandidate}
    (h : Collected capacity old) (hsame : new.map endpoint = old.map endpoint) :
    Collected capacity new := by
  have hlength : new.length = old.length := by simpa using congrArg List.length hsame
  exact ⟨by rw [hsame]; exact h.nodup, by rw [hlength]; exact h.count⟩

theorem collectProbe_spec (capacity : ℕ) (candidates : List SocketDirectCandidate)
    (h : Collected capacity candidates) (probe : Probe) :
    Collected capacity (collectProbe capacity candidates probe) ∧
      Kept candidates (collectProbe capacity candidates probe) := by
  obtain ⟨hsame, hkept⟩ := collectScan_spec probe.host probe.port candidates false
  have hscanned := h.of_endpoints hsame
  unfold collectProbe
  dsimp only
  split_ifs with hdone
  · exact ⟨hscanned, hkept⟩
  · obtain ⟨hadded, hkept'⟩ := socketCandidateAdd_spec capacity _ hscanned probe.host probe.port
      .prflx probe.fits
    exact ⟨hadded, hkept.trans hkept'⟩

theorem socketUdpPunchCollect_spec (capacity : ℕ) (candidates : List SocketDirectCandidate)
    (h : Collected capacity candidates) (probes : List Probe) :
    Collected capacity (socketUdpPunchCollect capacity candidates probes).2 ∧
      Kept candidates (socketUdpPunchCollect capacity candidates probes).2 := by
  unfold socketUdpPunchCollect
  dsimp only
  generalize probes.take socketPunchDrainMax = drained
  induction drained generalizing candidates with
  | nil => exact ⟨h, Kept.refl _⟩
  | cons probe drained ih =>
    obtain ⟨hone, hkept⟩ := collectProbe_spec capacity candidates h probe
    obtain ⟨hall, hkept'⟩ := ih _ hone
    exact ⟨hall, hkept.trans hkept'⟩

/-- A slot is only given out when no active job has the endpoint. -/
theorem scheduleLoop_some (candidate : SocketDirectCandidate) (jobs : List SocketPunchJob) (n : ℕ)
    (available found : Option ℕ) (h : scheduleLoop candidate jobs n available = some found) :
    ∀ job ∈ jobs, job.pacer.active = true → endpoint job.candidate ≠ endpoint candidate := by
  induction jobs generalizing n available with
  | nil => exact fun job hjob => absurd hjob List.not_mem_nil
  | cons job jobs ih =>
    unfold scheduleLoop at h
    by_cases hsame : job.pacer.active = true ∧ job.candidate.port = candidate.port ∧
        job.candidate.host = candidate.host
    · rw [if_pos hsame] at h
      exact nomatch h
    · rw [if_neg hsame] at h
      intro job' hjob' hactive he
      rcases List.mem_cons.mp hjob' with rfl | hrest
      · exact hsame ⟨hactive, congrArg Prod.fst he, congrArg Prod.snd he⟩
      · exact ih _ _ h job' hrest hactive he

theorem OneActive.set {jobs : List SocketPunchJob} (h : OneActive jobs) (n : ℕ)
    (job : SocketPunchJob) (hnew : ∀ other ∈ jobs, other.pacer.active = true →
      endpoint other.candidate ≠ endpoint job.candidate) : OneActive (jobs.set n job) := by
  intro i j a b ha hb hactive hactive' he
  rw [List.getElem?_set] at ha hb
  -- two active jobs with one endpoint: both are the new one, one of them is, or none is
  by_cases hi : n = i <;> by_cases hj : n = j
  · rw [← hi, ← hj]
  · rw [if_neg hj] at hb
    rw [if_pos hi] at ha
    split_ifs at ha
    obtain rfl := Option.some.inj ha
    exact absurd he.symm (hnew b (List.mem_of_getElem? hb) hactive')
  · rw [if_neg hi] at ha
    rw [if_pos hj] at hb
    split_ifs at hb
    obtain rfl := Option.some.inj hb
    exact absurd he (hnew a (List.mem_of_getElem? ha) hactive)
  · rw [if_neg hi] at ha
    rw [if_neg hj] at hb
    exact h i j a b ha hb hactive hactive' he

theorem socketUdpPunchSchedule_oneActive {jobs : List SocketPunchJob} (h : OneActive jobs)
    (candidate : SocketDirectCandidate) (nowMs : UInt64) :
    OneActive (socketUdpPunchSchedule jobs candidate nowMs) := by
  unfold socketUdpPunchSchedule
  split_ifs with hkind
  · exact h
  · split
    · exact h
    · exact h
    · rename_i n hfound
      exact h.set n _ (scheduleLoop_some candidate jobs 0 none (some n) hfound)

/-- An advanced pacer is not active unless it was. -/
theorem advance_active (pacer : SocketPunchPacer) (nowMs : UInt64) (action : SocketPunchAction)
    (h : (socketPunchPacerAdvance pacer nowMs action).active = true) : pacer.active = true := by
  cases action with
  | wait => exact h
  | send => exact h
  | complete => exact nomatch h

/-- An update activates no job and leaves each one its candidate. -/
theorem socketUdpPunchUpdate_job (now : UInt64) (punch : List Char → UInt16 → Bool)
    (jobs : List SocketPunchJob) (attempts successful : UInt32) (i : ℕ) (updated : SocketPunchJob)
    (h : (socketUdpPunchUpdate now punch jobs attempts successful).1[i]? = some updated) :
    ∃ job, jobs[i]? = some job ∧ updated.candidate = job.candidate ∧
      (updated.pacer.active = true → job.pacer.active = true) := by
  induction jobs generalizing attempts successful i with
  | nil => simp [socketUdpPunchUpdate] at h
  | cons job jobs ih =>
    unfold socketUdpPunchUpdate at h
    dsimp only at h
    split at h <;> cases i with
    | zero =>
      obtain rfl := Option.some.inj h
      refine ⟨job, rfl, rfl, ?_⟩
      first
        | exact fun hactive => hactive
        | exact advance_active job.pacer now _
    | succ i => exact ih _ _ i h

theorem OneActive.update {jobs : List SocketPunchJob} (h : OneActive jobs) (now : UInt64)
    (punch : List Char → UInt16 → Bool) (attempts successful : UInt32) :
    OneActive (socketUdpPunchUpdate now punch jobs attempts successful).1 := by
  intro i j a b ha hb hactive hactive' he
  obtain ⟨a', ha', hsame, hwas⟩ := socketUdpPunchUpdate_job now punch jobs _ _ i a ha
  obtain ⟨b', hb', hsame', hwas'⟩ := socketUdpPunchUpdate_job now punch jobs _ _ j b hb
  exact h i j a' b' ha' hb' (hwas hactive) (hwas' hactive') (by rw [← hsame, ← hsame', he])

variable (p : Platform) (ticket : List Char) (capacity : ℕ)

/-- The host of an accepted message fits into a candidate. -/
theorem parsed_host_fits (response : List Char) (parsed : SocketDirectCandidate)
    (h : socketRendezvousServerCandidateParse p (some response) (some ticket) true = some parsed) :
    parsed.host.length < 65 := by
  obtain ⟨_, _, _, hword, _⟩ := (serverCandidateParse_iff parsed).mp h
  have hlength := hword.2.1
  omega

theorem ClientState.step_spec (s : ClientState) (hc : Collected capacity s.candidates)
    (hjobs : OneActive s.punchJobs) (e : ClientEvent) :
    Collected capacity (s.step p ticket capacity e).candidates ∧
      Kept s.candidates (s.step p ticket capacity e).candidates ∧
      OneActive (s.step p ticket capacity e).punchJobs := by
  cases e with
  | update nowMs punch => exact ⟨hc, Kept.refl _, hjobs.update nowMs punch _ _⟩
  | collect probes =>
    obtain ⟨hall, hkept⟩ := socketUdpPunchCollect_spec capacity _ hc probes
    exact ⟨hall, hkept, hjobs⟩
  | message response nowMs =>
    unfold ClientState.step
    dsimp only
    split
    · exact ⟨hc, Kept.refl _, hjobs⟩
    · rename_i parsed hparsed
      obtain ⟨hall, hkept⟩ := socketCandidateAdd_spec capacity _ hc parsed.host parsed.port
        parsed.kind (parsed_host_fits p ticket response parsed hparsed)
      exact ⟨hall, hkept, socketUdpPunchSchedule_oneActive hjobs parsed nowMs⟩

theorem ClientState.run_spec (s : ClientState) (hc : Collected capacity s.candidates)
    (hjobs : OneActive s.punchJobs) (events : List ClientEvent) :
    Collected capacity (s.run p ticket capacity events).candidates ∧
      Kept s.candidates (s.run p ticket capacity events).candidates ∧
      OneActive (s.run p ticket capacity events).punchJobs := by
  induction events generalizing s with
  | nil => exact ⟨hc, Kept.refl _, hjobs⟩
  | cons e events ih =>
    obtain ⟨hc', hkept, hjobs'⟩ := s.step_spec p ticket capacity hc hjobs e
    obtain ⟨hc'', hkept', hjobs''⟩ := ih _ hc' hjobs'
    exact ⟨hc'', hkept.trans hkept', hjobs''⟩

theorem oneActive_start : OneActive ({} : ClientState).punchJobs := by
  intro i _ a _ ha _ hactive
  obtain rfl := List.eq_of_mem_replicate (List.mem_of_getElem? ha)
  exact nomatch hactive

/-- Whatever order the messages, the probes and the updates come in: no endpoint is collected
twice, there are never too many candidates, those that have been collected stay where they are,
and no endpoint has two active jobs. -/
theorem candidates_collected (before later : List ClientEvent) :
    let s := ClientState.run p ticket capacity {} before
    let t := s.run p ticket capacity later
    (t.candidates.map endpoint).Nodup ∧ t.candidates.length ≤ capacity ∧
      Kept s.candidates t.candidates ∧ OneActive t.punchJobs := by
  intro s t
  obtain ⟨hc, _, hjobs⟩ := ClientState.run_spec p ticket capacity {}
    ⟨List.nodup_nil, Nat.zero_le _⟩ oneActive_start before
  obtain ⟨hc', hkept, hjobs'⟩ := s.run_spec p ticket capacity hc hjobs later
  exact ⟨hc'.nodup, hc'.count, hkept, hjobs'⟩

end LibAtrinik.Punch

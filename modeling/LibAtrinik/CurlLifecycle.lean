import Mathlib.Data.Int.Notation
import Mathlib.Data.List.Basic

/-! The life of a request of `curl.c`: the owner starts it, looks at it and frees it, while its
thread transfers. What one of them does under the mutex of the request, or between two accesses to
it, is one step. What libcurl and the platform answer comes with the steps. -/
namespace LibAtrinik.CurlLifecycle

abbrev Bytes := List UInt8

inductive CurlState where
  | inprogress | ok | error
deriving DecidableEq, Repr

inductive Method where
  | get | post
deriving DecidableEq, Repr

structure Request where
  state : CurlState := .inprogress
  finished : Bool := false
  threaded : Bool := false
  /-- There is a callback. -/
  cb : Bool
  body : Option Bytes := none
  header : Option Bytes := none
  httpCode : ℤ := -1
deriving DecidableEq, Repr

/-! What the owner sees, each time after `curl_request_get_state`. -/

def curlRequestGetBody (request : Request) : Option Bytes :=
  if request.state = .inprogress then none else request.body

def curlRequestGetHeader (request : Request) : Option Bytes :=
  if request.state = .inprogress then none else request.header

def curlRequestGetHttpCode (request : Request) : ℤ :=
  if request.state = .inprogress then -1 else request.httpCode

/-- Where the thread is in `curl_request_do_get` or `curl_request_do_post`. -/
inductive WorkerAt where
  | delay | easyInit | etag | setup | form | perform | httpCode | writeCache | loadCache
  | publish (ok : Bool)
  | cleanup | notify | callback | returned
deriving DecidableEq, Repr

inductive WorkerEvent where
  /-- What the thread does next succeeds, or cannot fail. -/
  | pass
  | fail
  /-- A callback of the transfer has stored data. -/
  | receive (body header : Option Bytes)
  | code (httpCode : ℤ)
  /-- The body that was read from the cache. -/
  | cached (body : Bytes)

/-- A step of the thread. `curl_request_complete` is what follows from `perform` on. -/
def workerStep (method : Method) (request : Request) :
    WorkerAt → WorkerEvent → Option (WorkerAt × Request)
  | .delay, .pass => some (.easyInit, request)
  | .easyInit, .pass => some (if method = .get then .etag else .setup, request)
  | .easyInit, .fail => some (.publish false, request)
  | .etag, .pass => some (.setup, request)
  | .setup, .pass => some (if method = .get then .perform else .form, request)
  | .setup, .fail => some (.publish false, request)
  | .form, .pass => some (.perform, request)
  | .form, .fail => some (.publish false, request)
  | .perform, .receive body header => some (.perform, { request with body := body, header := header })
  | .perform, .pass => some (.httpCode, request)
  | .perform, .fail => some (.publish false, request)
  | .httpCode, .code httpCode =>
    some (if httpCode = 200 then .writeCache else if httpCode = 304 then .loadCache
      else .publish false, { request with httpCode := httpCode })
  | .writeCache, .pass => some (.publish true, request)
  | .loadCache, .cached body => some (.publish true, { request with body := some body })
  | .loadCache, .fail => some (.publish false, request)
  | .publish ok, .pass =>
    some (.cleanup, { request with state := if ok then .ok else .error })
  | .cleanup, .pass => some (.notify, request)
  | .notify, .pass =>
    -- `finished` is read without the mutex.
    some (if request.cb && !request.finished then .callback else .returned, request)
  | .callback, .pass => some (.returned, request)
  | _, _ => none

/-- Where the owner is. -/
inductive OwnerAt where
  | fresh
  | starting (method : Method)
  | holding
  | freeFlag | freeJoin | freeRelease
  | gone
deriving DecidableEq, Repr

/-- A request with its owner and its thread, and how often the callback was called. `touched` says
that the thread has accessed the request after it was freed. -/
structure System where
  request : Request
  owner : OwnerAt := .fresh
  worker : Option (Method × WorkerAt) := none
  calls : ℕ := 0
  touched : Bool := false
deriving DecidableEq, Repr

inductive Action where
  | start (method : Method) (created : Bool)
  | started
  | free | setFinished | join | release
  | worker (event : WorkerEvent)

/-- `curl_request_start_get` and `curl_request_start_post`, up to the creation of the thread. The
owner starts a request once at most, and not again if there is no thread for it. -/
def startStep (s : System) (method : Method) (created : Bool) : Option System :=
  if s.owner ≠ .fresh then none
  else if created then
    some { s with owner := .starting method, worker := some (method, .delay) }
  else some { s with owner := .holding, request := { s.request with state := .error } }

/-- Behind the creation of the thread, only the first of them remembers it. -/
def startedStep (s : System) : Option System :=
  match s.owner with
  | .starting .get =>
    some { s with owner := .holding, request := { s.request with threaded := true } }
  | .starting .post => some { s with owner := .holding }
  | _ => none

/-- `curl_request_free`. A request that was never started may be freed too. -/
def freeStep (s : System) : Option System :=
  if s.owner = .fresh ∨ s.owner = .holding then
    some { s with owner := if s.request.state = .inprogress then .freeFlag else .freeJoin }
  else none

def setFinishedStep (s : System) : Option System :=
  if s.owner = .freeFlag then
    some { s with owner := .freeJoin, request := { s.request with finished := true } }
  else none

/-- `pthread_join` waits until the thread has returned. -/
def joinStep (s : System) : Option System :=
  if s.owner = .freeJoin then
    if s.request.threaded && s.worker.any (fun w => w.2 ≠ .returned) then none
    else some { s with owner := .freeRelease }
  else none

def releaseStep (s : System) : Option System :=
  if s.owner = .freeRelease then some { s with owner := .gone } else none

/-- Every step of the thread accesses the request. -/
def threadStep (s : System) (event : WorkerEvent) : Option System :=
  match s.worker with
  | none => none
  | some (method, place) =>
    (workerStep method s.request place event).map fun next =>
      { s with
        worker := some (method, next.1)
        request := next.2
        calls := if place = .callback then s.calls+1 else s.calls
        touched := s.touched || s.owner = .gone }

def step (s : System) : Action → Option System
  | .start method created => startStep s method created
  | .started => startedStep s
  | .free => freeStep s
  | .setFinished => setFinishedStep s
  | .join => joinStep s
  | .release => releaseStep s
  | .worker event => threadStep s event

def run (s : System) (actions : List Action) : Option System := actions.foldlM step s

def init (cb : Bool) : System := { request := { cb := cb } }

/-- The thread has not made the result known. -/
def WorkerAt.transferring : WorkerAt → Bool
  | .cleanup | .notify | .callback | .returned => false
  | _ => true

/-- What holds between any two steps. -/
structure Invariant (s : System) : Prop where
  fresh : s.owner = .fresh → s.worker = none ∧ s.request.state = .inprogress
  starting : ∀ m, s.owner = .starting m → ∃ place, s.worker = some (m, place)
  /-- A thread that was started for a GET is remembered, and waited for. -/
  remembered : ∀ place, s.worker = some (.get, place) →
    s.owner = .starting .get ∨ s.request.threaded = true
  joined : ∀ place, s.worker = some (.get, place) → s.owner = .freeRelease ∨ s.owner = .gone →
    place = .returned
  forgotten : s.request.threaded = true → ∃ place, s.worker = some (.get, place)
  touched : s.touched = true → ∃ place, s.worker = some (.post, place)
  /-- The state is made known once, and by the thread if there is one. -/
  known : ∀ m place, s.worker = some (m, place) →
    (s.request.state = .inprogress ↔ place.transferring = true)
  calls : s.calls = 0 ∨ s.calls = 1 ∧ ∃ m, s.worker = some (m, .returned)

theorem invariant_init (cb : Bool) : Invariant (init cb) where
  fresh _ := ⟨rfl, rfl⟩
  starting _ h := by cases h
  remembered _ h := by cases h
  joined _ h := by cases h
  forgotten h := by cases h
  touched h := by cases h
  known _ _ h := by cases h
  calls := Or.inl rfl

variable {s s' : System}

/-- What a step of the thread does to the request: it transfers, makes the state known, or no
longer changes anything. -/
structure WorkerSpec (request request' : Request) (place place' : WorkerAt) : Prop where
  threaded : request'.threaded = request.threaded
  live : place ≠ .returned
  callback : place = .callback → place' = .returned
  kept : place.transferring = false → request' = request ∧ place'.transferring = false
  known : place.transferring = true →
    (place'.transferring = true ∧ request'.state = request.state) ∨
      place'.transferring = false ∧ request'.state ≠ .inprogress

theorem workerStep_spec {method : Method} {request request' : Request} {place place' : WorkerAt}
    {event : WorkerEvent} (h : workerStep method request place event = some (place', request')) :
    WorkerSpec request request' place place' := by
  unfold workerStep at h
  -- One case for each place and what happens there.
  split at h
  all_goals
    first
    | contradiction
    | obtain ⟨rfl, rfl⟩ := Prod.mk.inj (Option.some.inj h)
      constructor
      all_goals try simp [WorkerAt.transferring]
  all_goals split_ifs <;> simp

theorem threadStep_eq_some {event : WorkerEvent} (hs : threadStep s event = some s') :
    ∃ method place place' request', s.worker = some (method, place) ∧
      WorkerSpec s.request request' place place' ∧
      s' = { s with
        worker := some (method, place')
        request := request'
        calls := if place = .callback then s.calls+1 else s.calls
        touched := s.touched || s.owner = .gone } := by
  unfold threadStep at hs
  cases hw : s.worker with
  | none => rw [hw] at hs; contradiction
  | some w =>
    obtain ⟨method, place⟩ := w
    rw [hw] at hs
    obtain ⟨next, hstep, rfl⟩ := Option.map_eq_some_iff.mp hs
    exact ⟨method, place, next.1, next.2, rfl, workerStep_spec hstep, rfl⟩

theorem Invariant.worker (h : Invariant s) {event : WorkerEvent}
    (hs : threadStep s event = some s') : Invariant s' := by
  obtain ⟨method, place, place', request', hw, hspec, rfl⟩ := threadStep_eq_some hs
  refine ⟨fun howner => ?_, fun m howner => ?_, fun p hp => ?_, fun p hp howner => ?_,
    fun hthreaded => ?_, fun htouched => ?_, fun m p hp => ?_, ?_⟩
  · rw [(h.fresh howner).1] at hw
    contradiction
  · obtain ⟨p, hp⟩ := h.starting m howner
    rw [hw] at hp
    cases hp
    exact ⟨place', rfl⟩
  · cases hp
    dsimp only
    rw [hspec.threaded]
    exact h.remembered place hw
  · -- The thread has returned already.
    cases hp
    exact absurd (h.joined place hw howner) hspec.live
  · dsimp only at hthreaded
    rw [hspec.threaded] at hthreaded
    obtain ⟨p, hp⟩ := h.forgotten hthreaded
    rw [hw] at hp
    cases hp
    exact ⟨place', rfl⟩
  · cases method with
    | post => exact ⟨place', rfl⟩
    | get =>
      exfalso
      rcases Bool.or_eq_true_iff.mp htouched with ht | hgone
      · obtain ⟨p, hp⟩ := h.touched ht
        rw [hw] at hp
        cases hp
      · exact hspec.live (h.joined place hw (Or.inr (of_decide_eq_true hgone)))
  · cases hp
    dsimp only
    have hknown := h.known method place hw
    cases ht : place.transferring with
    | true =>
      rcases hspec.known ht with ⟨hplace, hstate⟩ | ⟨hplace, hstate⟩
      · rw [hstate, hplace, hknown, ht]
      · simp [hplace, hstate]
    | false =>
      obtain ⟨hsame, hplace⟩ := hspec.kept ht
      rw [hsame, hplace, hknown, ht]
  · dsimp only
    by_cases hcallback : place = .callback
    · rw [if_pos hcallback]
      rcases h.calls with hzero | ⟨_, m, hreturned⟩
      · exact Or.inr ⟨by rw [hzero], method, by rw [hspec.callback hcallback]⟩
      · rw [hw] at hreturned
        cases hreturned
        exact absurd rfl hspec.live
    · rw [if_neg hcallback]
      rcases h.calls with hzero | ⟨_, m, hreturned⟩
      · exact Or.inl hzero
      · rw [hw] at hreturned
        cases hreturned
        exact absurd rfl hspec.live

theorem Invariant.start (h : Invariant s) {method : Method} {created : Bool}
    (hs : startStep s method created = some s') : Invariant s' := by
  unfold startStep at hs
  by_cases howner : s.owner = .fresh
  · rw [if_neg (not_not.mpr howner)] at hs
    obtain ⟨hnone, hstate⟩ := h.fresh howner
    have hno (m : Method) (place : WorkerAt) : s.worker ≠ some (m, place) := by
      rw [hnone]
      exact nofun
    have huntouched : s.touched ≠ true := fun ht => (h.touched ht).elim fun _ hw => hno _ _ hw
    have hunthreaded : s.request.threaded ≠ true := fun ht =>
      (h.forgotten ht).elim fun _ hw => hno _ _ hw
    have hcalls : s.calls = 0 := h.calls.resolve_right fun hone =>
      hone.2.elim fun _ hw => hno _ _ hw
    cases created with
    | true =>
      obtain rfl := Option.some.inj hs
      refine ⟨nofun, fun m hm => ?_, fun _ hw => ?_, fun _ _ hor => by simp at hor,
        fun ht => absurd ht hunthreaded, fun ht => absurd ht huntouched, fun m place hw => ?_,
        Or.inl hcalls⟩
      · cases hm
        exact ⟨_, rfl⟩
      · cases hw
        exact Or.inl rfl
      · cases hw
        exact iff_of_true hstate rfl
    | false =>
      obtain rfl := Option.some.inj hs
      exact ⟨nofun, nofun, fun _ hw => absurd hw (hno _ _), fun _ hw => absurd hw (hno _ _),
        fun ht => absurd ht hunthreaded, fun ht => absurd ht huntouched,
        fun _ _ hw => absurd hw (hno _ _), Or.inl hcalls⟩
  · rw [if_pos howner] at hs
    contradiction

/-- A step of the owner behind the start, which leaves the thread and what it has made known. -/
theorem Invariant.owner (h : Invariant s) {owner : OwnerAt} {request : Request}
    (hstate : request.state = s.request.state)
    (hthreaded : request.threaded = s.request.threaded)
    (hbehind : ∀ m, s.owner ≠ .starting m) (hfresh : owner ≠ .fresh)
    (hstarting : ∀ m, owner ≠ .starting m)
    (hjoined : owner = .freeRelease ∨ owner = .gone →
      ∀ place, s.worker = some (.get, place) → place = .returned) :
    Invariant { s with owner := owner, request := request } where
  fresh howner := absurd howner hfresh
  starting m howner := absurd howner (hstarting m)
  remembered place hw := by
    right
    dsimp only
    rw [hthreaded]
    exact (h.remembered place hw).resolve_left (hbehind _)
  joined place hw howner := hjoined howner place hw
  forgotten ht := h.forgotten (hthreaded ▸ ht)
  touched := h.touched
  known m place hw := by
    dsimp only
    rw [hstate]
    exact h.known m place hw
  calls := h.calls

theorem Invariant.started (h : Invariant s) (hs : startedStep s = some s') : Invariant s' := by
  unfold startedStep at hs
  split at hs
  · rename_i howner
    obtain rfl := Option.some.inj hs
    refine ⟨nofun, nofun, fun _ _ => Or.inr rfl, fun _ _ hor => by simp at hor,
      fun _ => h.starting _ howner, h.touched, h.known, h.calls⟩
  · rename_i howner
    obtain rfl := Option.some.inj hs
    obtain ⟨place, hw⟩ := h.starting _ howner
    refine ⟨nofun, nofun, fun p hp => ?_, fun p hp => ?_, h.forgotten, h.touched, h.known,
      h.calls⟩
    · rw [hw] at hp
      cases hp
    · rw [hw] at hp
      cases hp
  · contradiction

theorem Invariant.free (h : Invariant s) (hs : freeStep s = some s') : Invariant s' := by
  unfold freeStep at hs
  split_ifs at hs with howner
  all_goals
    obtain rfl := Option.some.inj hs
    apply h.owner rfl rfl
    all_goals grind

theorem Invariant.setFinished (h : Invariant s) (hs : setFinishedStep s = some s') :
    Invariant s' := by
  unfold setFinishedStep at hs
  split_ifs at hs with howner
  obtain rfl := Option.some.inj hs
  apply @Invariant.owner s h .freeJoin { s.request with finished := true } rfl rfl
  all_goals simp [howner]

/-- The thread of a GET has returned when the owner goes on. -/
theorem Invariant.join (h : Invariant s) (hs : joinStep s = some s') : Invariant s' := by
  unfold joinStep at hs
  split_ifs at hs with howner hwait
  obtain rfl := Option.some.inj hs
  apply h.owner rfl rfl
  · simp [howner]
  · simp
  · simp
  · intro _ place hw
    by_contra hlive
    apply hwait
    have hthreaded := (h.remembered place hw).resolve_left (by simp [howner])
    simp [hthreaded, hw, hlive]

theorem Invariant.release (h : Invariant s) (hs : releaseStep s = some s') : Invariant s' := by
  unfold releaseStep at hs
  split_ifs at hs with howner
  obtain rfl := Option.some.inj hs
  apply h.owner rfl rfl
  · simp [howner]
  · simp
  · simp
  · exact fun _ place hw => h.joined place hw (Or.inl howner)

theorem Invariant.step (h : Invariant s) {action : Action} (hs : step s action = some s') :
    Invariant s' := by
  cases action with
  | start method created => exact h.start hs
  | started => exact h.started hs
  | free => exact h.free hs
  | setFinished => exact h.setFinished hs
  | join => exact h.join hs
  | release => exact h.release hs
  | worker event => exact h.worker hs

/-- An invariant of the steps is one of the runs. -/
theorem run_preserves (I : System → Prop)
    (hstep : ∀ s s' action, I s → step s action = some s' → I s') {actions : List Action}
    (h : I s) (hrun : run s actions = some s') : I s' := by
  induction actions generalizing s with
  | nil => exact Option.some.inj hrun ▸ h
  | cons action actions ih =>
    rw [run, List.foldlM_cons] at hrun
    obtain ⟨s'', hs, hrest⟩ := Option.bind_eq_some_iff.mp hrun
    exact ih (hstep s s'' action h hs) hrest

theorem invariant_run {cb : Bool} {actions : List Action} (hrun : run (init cb) actions = some s) :
    Invariant s :=
  run_preserves Invariant (fun _ _ _ h hs => h.step hs) (invariant_init cb) hrun

/-- What is known of the result. -/
def Request.result (request : Request) : CurlState × Option Bytes × Option Bytes × ℤ :=
  (request.state, request.body, request.header, request.httpCode)

/-- Behind the start, either the thread does something or the owner, who leaves the thread and the
result. -/
theorem step_cases (hstarted : s.owner ≠ .fresh) {action : Action}
    (hs : CurlLifecycle.step s action = some s') :
    (∃ event, threadStep s event = some s') ∨
      s'.owner ≠ .fresh ∧ s'.worker = s.worker ∧ s'.touched = s.touched ∧
        s'.request.result = s.request.result := by
  cases action with
  | start method created =>
    rw [step, startStep, if_pos hstarted] at hs
    contradiction
  | started =>
    rw [step, startedStep] at hs
    split at hs
    · exact Or.inr (Option.some.inj hs ▸ ⟨nofun, rfl, rfl, rfl⟩)
    · exact Or.inr (Option.some.inj hs ▸ ⟨nofun, rfl, rfl, rfl⟩)
    · contradiction
  | free =>
    rw [step, freeStep] at hs
    split_ifs at hs
    · exact Or.inr (Option.some.inj hs ▸ ⟨nofun, rfl, rfl, rfl⟩)
    · exact Or.inr (Option.some.inj hs ▸ ⟨nofun, rfl, rfl, rfl⟩)
  | setFinished =>
    rw [step, setFinishedStep] at hs
    split_ifs at hs
    exact Or.inr (Option.some.inj hs ▸ ⟨nofun, rfl, rfl, rfl⟩)
  | join =>
    rw [step, joinStep] at hs
    split_ifs at hs
    exact Or.inr (Option.some.inj hs ▸ ⟨nofun, rfl, rfl, rfl⟩)
  | release =>
    rw [step, releaseStep] at hs
    split_ifs at hs
    exact Or.inr (Option.some.inj hs ▸ ⟨nofun, rfl, rfl, rfl⟩)
  | worker event => exact Or.inl ⟨event, hs⟩

theorem Invariant.result_kept (h : Invariant s) (hknown : s.request.state ≠ .inprogress)
    {action : Action} (hs : CurlLifecycle.step s action = some s') :
    s'.request.result = s.request.result := by
  have hstarted : s.owner ≠ .fresh := fun hfresh => hknown (h.fresh hfresh).2
  rcases step_cases hstarted hs with ⟨event, hthread⟩ | ⟨_, _, _, hsame⟩
  · obtain ⟨method, place, place', request', hw, hspec, rfl⟩ := threadStep_eq_some hthread
    -- The thread no longer changes the request.
    have hplace : place.transferring = false :=
      Bool.eq_false_iff.mpr fun ht => hknown ((h.known method place hw).mpr ht)
    exact congrArg Request.result (hspec.kept hplace).1
  · exact hsame

/-- The callback is called at most once, and when the state of the request is known. From then on
everything that the owner can see of the request stays as it is, whatever its thread still does. -/
theorem published_result_kept (cb : Bool) (actions more : List Action) (s s' : System)
    (hrun : run (init cb) actions = some s) (hmore : run s more = some s') :
    s.calls ≤ 1 ∧ (s.calls = 1 → s.request.state ≠ .inprogress) ∧
      (s.request.state ≠ .inprogress →
        s'.request.state = s.request.state ∧
        curlRequestGetBody s'.request = curlRequestGetBody s.request ∧
        curlRequestGetHeader s'.request = curlRequestGetHeader s.request ∧
        curlRequestGetHttpCode s'.request = curlRequestGetHttpCode s.request) := by
  have h := invariant_run hrun
  refine ⟨?_, fun hone => ?_, fun hknown => ?_⟩
  · rcases h.calls with hzero | ⟨hone, _⟩
    · omega
    · omega
  · rcases h.calls with hzero | ⟨_, m, hw⟩
    · omega
    · intro hstate
      have htransferring := (h.known m .returned hw).mp hstate
      contradiction
  · have hresult := (run_preserves
      (fun s' => Invariant s' ∧ s'.request.result = s.request.result) (fun a b action ha hs => by
        have hstate : a.request.state = s.request.state := congrArg Prod.fst ha.2
        refine ⟨ha.1.step hs, ?_⟩
        rw [ha.1.result_kept (hstate ▸ hknown) hs, ha.2]) ⟨h, rfl⟩ hmore).2
    obtain ⟨hstate, hrest⟩ := Prod.mk.inj hresult
    obtain ⟨hbody, hrest⟩ := Prod.mk.inj hrest
    obtain ⟨hheader, hcode⟩ := Prod.mk.inj hrest
    refine ⟨hstate, ?_, ?_, ?_⟩
    · rw [curlRequestGetBody, curlRequestGetBody, hstate, hbody]
    · rw [curlRequestGetHeader, curlRequestGetHeader, hstate, hheader]
    · rw [curlRequestGetHttpCode, curlRequestGetHttpCode, hstate, hcode]

/-- A GET whose transfer fails, looked at before its thread returns. -/
theorem published_result_kept_get :
    let published : System := { init true with
      request := { cb := true, state := .error }, owner := .starting .get
      worker := some (.get, .cleanup) }
    let last : System := { published with owner := .holding
                                          request := { published.request with threaded := true } }
    run (init true) [.start .get true, .worker .pass, .worker .fail, .worker .pass] =
        some published ∧
      run published [.started] = some last ∧
      published.calls ≤ 1 ∧ (published.calls = 1 → published.request.state ≠ .inprogress) ∧
      (published.request.state ≠ .inprogress →
        last.request.state = published.request.state ∧
        curlRequestGetBody last.request = curlRequestGetBody published.request ∧
        curlRequestGetHeader last.request = curlRequestGetHeader published.request ∧
        curlRequestGetHttpCode last.request = curlRequestGetHttpCode published.request) :=
  ⟨rfl, rfl, published_result_kept true
    [.start .get true, .worker .pass, .worker .fail, .worker .pass] [.started] _ _ rfl rfl⟩

/-- The thread may still access the request after it is freed. -/
def CanTouch (s : System) : Prop := ∃ more s', run s more = some s' ∧ s'.touched = true

theorem CanTouch.of_step {action : Action} (hs : step s action = some s') (h : CanTouch s') :
    CanTouch s := by
  obtain ⟨more, last, hrun, ht⟩ := h
  refine ⟨action :: more, last, ?_, ht⟩
  rw [run, List.foldlM_cons, hs]
  exact hrun

/-- The thread of a POST has not returned. -/
def PostLive (s : System) : Prop := ∃ place, s.worker = some (.post, place) ∧ place ≠ .returned

/-- A thread that has not returned can do something. -/
theorem exists_workerStep (method : Method) (request : Request) {place : WorkerAt}
    (h : place ≠ .returned) : ∃ event, (workerStep method request place event).isSome = true := by
  cases place with
  | httpCode => exact ⟨.code 200, rfl⟩
  | loadCache => exact ⟨.fail, rfl⟩
  | returned => exact absurd rfl h
  | _ => exact ⟨.pass, rfl⟩

theorem PostLive.gone (h : PostLive s) (howner : s.owner = .gone) : CanTouch s := by
  obtain ⟨place, hw, hlive⟩ := h
  obtain ⟨event, hsome⟩ := exists_workerStep .post s.request hlive
  obtain ⟨next, hstep⟩ := Option.isSome_iff_exists.mp hsome
  have hs : step s (.worker event) = some { s with
      worker := some (.post, next.1)
      request := next.2
      calls := if place = .callback then s.calls+1 else s.calls
      touched := s.touched || s.owner = .gone } := by
    rw [step, threadStep, hw]
    dsimp only
    rw [hstep]
    rfl
  refine CanTouch.of_step hs ⟨[], _, rfl, ?_⟩
  simp [howner]

theorem PostLive.release (h : PostLive s) (howner : s.owner = .freeRelease) : CanTouch s := by
  have hs : step s .release = some { s with owner := .gone } := by
    rw [step, releaseStep, if_pos howner]
  exact CanTouch.of_step hs (PostLive.gone h rfl)

/-- Nobody waits for the thread of a POST. -/
theorem PostLive.join (h : PostLive s) (hun : s.request.threaded = false)
    (howner : s.owner = .freeJoin) : CanTouch s := by
  have hs : step s .join = some { s with owner := .freeRelease } := by
    rw [step, joinStep, if_pos howner, if_neg (by simp [hun])]
  exact CanTouch.of_step hs (PostLive.release h rfl)

theorem PostLive.flag (h : PostLive s) (hun : s.request.threaded = false)
    (howner : s.owner = .freeFlag) : CanTouch s := by
  have hs : step s .setFinished = some { s with
      owner := .freeJoin, request := { s.request with finished := true } } := by
    rw [step, setFinishedStep, if_pos howner]
  refine CanTouch.of_step hs (PostLive.join h ?_ rfl)
  exact hun

theorem PostLive.free (h : PostLive s) (hun : s.request.threaded = false)
    (howner : s.owner = .holding) : CanTouch s := by
  have hs : step s .free = some { s with
      owner := if s.request.state = .inprogress then .freeFlag else .freeJoin } := by
    rw [step, freeStep, if_pos (Or.inr howner)]
  by_cases hstate : s.request.state = .inprogress
  · rw [if_pos hstate] at hs
    exact CanTouch.of_step hs (PostLive.flag h hun rfl)
  · rw [if_neg hstate] at hs
    exact CanTouch.of_step hs (PostLive.join h hun rfl)

theorem PostLive.starting (h : PostLive s) (hun : s.request.threaded = false)
    (howner : s.owner = .starting .post) : CanTouch s := by
  have hs : step s .started = some { s with owner := .holding } := by
    rw [step, startedStep, howner]
  exact CanTouch.of_step hs (PostLive.free h hun rfl)

/-- Neither a thread of a POST nor the chance to start one. -/
structure Sound (s : System) : Prop where
  invariant : Invariant s
  started : s.owner ≠ .fresh
  returned : ¬ PostLive s
  untouched : s.touched ≠ true

theorem Sound.step (h : Sound s) {action : Action}
    (hs : CurlLifecycle.step s action = some s') : Sound s' := by
  have hi := h.invariant.step hs
  rcases step_cases h.started hs with ⟨event, hthread⟩ | ⟨howner, hworker, htouched, _⟩
  · -- Only the thread of a GET can have done something.
    obtain ⟨method, place, place', request', hw, hspec, rfl⟩ := threadStep_eq_some hthread
    cases method with
    | post => exact absurd ⟨place, hw, hspec.live⟩ h.returned
    | get =>
      refine ⟨hi, h.started, nofun, fun ht => ?_⟩
      obtain ⟨p, hp⟩ := hi.touched ht
      cases hp
  · refine ⟨hi, howner, ?_, ?_⟩
    · rw [PostLive, hworker]
      exact h.returned
    · rw [htouched]
      exact h.untouched

end LibAtrinik.CurlLifecycle

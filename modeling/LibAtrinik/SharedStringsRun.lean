import LibAtrinik.SharedStringsCalls

namespace LibAtrinik.SharedStrings

open DoublyLinked Interning

section Runs

/-- The references to each handle after a call. -/
def refsAfter (refs : Addr → ℕ) : Call → Option Addr → Addr → ℕ
  | .addString _, some id => Function.update refs id (refs id+1)
  | .addRefcount id, _ => Function.update refs id (refs id+1)
  | .freeStringShared id, _ => Function.update refs id (refs id-1)
  | _, _ => refs

/-- A string of an entry is one that there is a reference to. -/
def Str.Live (refs : Addr → ℕ) : Str → Prop
  | .shared id => 0 < refs id
  | .other _ => True

/-- Handles are used while they are live. -/
def Allowed (refs : Addr → ℕ) : Call → Prop
  | .addString str => str.Live refs
  | .addRefcount id => 0 < refs id
  | .findString str => str.Live refs
  | .freeStringShared id => 0 < refs id

/-- A call that returns, with fewer than `2 ^ 63` references to each string afterwards. -/
structure Called (malloc : Addr) (st : State) (refs : Addr → ℕ) (call : Call) (answer : Option Addr)
    (st' : State) : Prop where
  fresh : st.memory malloc = none
  allowed : Allowed refs call
  result : perform malloc st call = .ok (answer, st')
  bound : ∀ id, refsAfter refs call answer id < 2^63

/-- The states that a sequence of calls leads to, with the references in the hands of the callers.
-/
inductive Run : State → (Addr → ℕ) → Prop where
  | init : Run State.init fun _ => 0
  | call {malloc : Addr} {st st' : State} {refs : Addr → ℕ} {call : Call} {answer : Option Addr}
      (h : Run st refs) (hcall : Called malloc st refs call answer st') :
      Run st' (refsAfter refs call answer)

/-- A sequence of calls during which there is always a reference to a handle. -/
inductive WhileLive (id : Addr) (st : State) (refs : Addr → ℕ) : State → (Addr → ℕ) → Prop where
  | here : WhileLive id st refs st refs
  | call {malloc : Addr} {st₁ st₂ : State} {refs₁ : Addr → ℕ} {call : Call} {answer : Option Addr}
      (h : WhileLive id st refs st₁ refs₁) (hcall : Called malloc st₁ refs₁ call answer st₂)
      (hlive : refsAfter refs₁ call answer id ≠ 0) :
      WhileLive id st refs st₂ (refsAfter refs₁ call answer)

end Runs

section Steps

variable {st st' : State} {chains : Slot → List Addr} {t t' : Table CString Addr} {malloc : Addr}
  {call : Call} {answer : Option Addr}

/-- The event of a call and its answer. -/
def Means (st : State) : Call → Option Addr → Event CString Addr → Prop
  | .addString str, some id, .acquire contents id' => st.contents str = .ok contents ∧ id = id'
  | .addRefcount id, some id', .share id'' => id = id' ∧ id = id''
  | .findString str, answer, .find contents answer' => st.contents str = .ok contents ∧ answer = answer'
  | .freeStringShared id, none, .release id' => id = id'
  | _, _, _ => False

/-- The callers count as the table does. -/
theorem Means.count {event : Event CString Addr} (h : Means st call answer event)
    (refs : Addr → ℕ) : refsAfter refs call answer = event.count refs := by
  cases call with
  | addString str =>
    cases answer with
    | none => cases event <;> exact h.elim
    | some id =>
      cases event with
      | acquire contents id' =>
        rw [← h.2]
        rfl
      | share => exact h.elim
      | release => exact h.elim
      | find => exact h.elim
  | addRefcount id =>
    cases answer with
    | none => cases event <;> exact h.elim
    | some id' =>
      cases event with
      | share id'' =>
        rw [← h.2]
        rfl
      | acquire => exact h.elim
      | release => exact h.elim
      | find => exact h.elim
  | findString str =>
    cases event with
    | find contents answer' => rfl
    | acquire => cases answer <;> exact h.elim
    | share => cases answer <;> exact h.elim
    | release => cases answer <;> exact h.elim
  | freeStringShared id =>
    cases answer with
    | some id' => cases event <;> exact h.elim
    | none =>
      cases event with
      | release id' =>
        rw [← show id = id' from h]
        rfl
      | acquire => exact h.elim
      | share => exact h.elim
      | find => exact h.elim

/-- A handle with a reference is in memory. -/
theorem Represents.of_references (h : Represents st chains t) (id : Addr)
    (hid : 0 < t.references id) : ∃ contents n, t id = some (contents, n+1) ∧
      ∃ ss, st.memory id = some ss ∧ ss.string = contents ∧ ss.references = n+1 := by
  unfold Table.references at hid
  cases hentry : t id with
  | none =>
    rw [hentry] at hid
    exact absurd hid (Nat.lt_irrefl 0)
  | some entry =>
    obtain ⟨contents, n⟩ := entry
    rw [hentry] at hid
    have hpos : 0 < n := hid
    obtain ⟨m, hm⟩ := Nat.exists_eq_succ_of_ne_zero (Nat.ne_of_gt hpos)
    rw [hm] at hentry ⊢
    exact ⟨contents, m, rfl, h.live hentry⟩

theorem Represents.contents (h : Represents st chains t) (str : Str) (hlive : str.Live t.references) :
    ∃ contents, st.contents str = .ok contents := by
  cases str with
  | other contents => exact ⟨contents, rfl⟩
  | shared id =>
    obtain ⟨contents, n, _, ss, hss, hstring, _⟩ := h.of_references id hlive
    refine ⟨contents, ?_⟩
    change (st.load id >>= fun ss => pure ss.string) = _
    rw [State.load_ok st id ss hss, ← hstring]
    rfl

/-- Each call returns, and is an event of the table as long as its references can be counted. -/
theorem perform_spec (h : Represents st chains t) (hfresh : st.memory malloc = none) (call : Call)
    (hallowed : Allowed t.references call) :
    ∃ answer st', perform malloc st call = .ok (answer, st') ∧
      ((∀ id, refsAfter t.references call answer id < 2^63) →
        ∃ chains' t' event, Means st call answer event ∧ Step t event t' ∧
          Represents st' chains' t') := by
  cases call with
  | addString str =>
    obtain ⟨contents, hstr⟩ := h.contents str hallowed
    obtain ⟨id, st', hadd, hstep⟩ := addString_spec h malloc hfresh hstr
    refine ⟨some id, st', ?_, ?_⟩
    · change (addString malloc st str >>= fun result => _) = _
      rw [hadd]
      rfl
    · intro hbound
      obtain ⟨chains', t', hevent, hrep⟩ := hstep fun n hid => by
        have hafter := hbound id
        change Function.update t.references id (t.references id+1) id < 2^63 at hafter
        rwa [Function.update_self, references_eq hid] at hafter
      exact ⟨chains', t', .acquire contents id, ⟨hstr, rfl⟩, hevent, hrep⟩
  | addRefcount id =>
    obtain ⟨contents, n, hid, ss, hss, hstring, hn⟩ := h.of_references id hallowed
    refine ⟨some id, st.set id { ss with refcount := ss.refcount+1 }, ?_, ?_⟩
    · change (shareEntry st id >>= fun result => _) = _
      rw [shareEntry_ok id ss hss]
      rfl
    · intro hbound
      have hafter := hbound id
      change Function.update t.references id (t.references id+1) id < 2^63 at hafter
      rw [Function.update_self, references_eq hid, ← hn] at hafter
      exact ⟨chains, _, .share id, ⟨rfl, rfl⟩, .share ss.string ss.references id (h.interned hss),
        shareEntry_spec h id ss hss hafter⟩
  | findString str =>
    obtain ⟨contents, hstr⟩ := h.contents str hallowed
    obtain ⟨answer, hfind, hevent⟩ := findString_spec h hstr
    refine ⟨answer, st, ?_, fun _ =>
      ⟨chains, t, .find contents answer, ?_, hevent, h⟩⟩
    · change (findString st str >>= fun answer => _) = _
      rw [hfind]
      rfl
    · cases answer <;> exact ⟨hstr, rfl⟩
  | freeStringShared id =>
    obtain ⟨contents, n, hid, _⟩ := h.of_references id hallowed
    obtain ⟨st', chains', t', hfree, hevent, hrep⟩ := freeStringShared_spec h id n hid
    refine ⟨none, st', ?_, fun _ => ⟨chains', t', .release id, rfl, hevent, hrep⟩⟩
    change (freeStringShared st id >>= fun st => _) = _
    rw [hfree]
    rfl

/-- A call of a run is an event of the table. -/
theorem Called.step {refs : Addr → ℕ} (hcall : Called malloc st refs call answer st')
    (h : Represents st chains t) (hrefs : t.references = refs) :
    ∃ chains' t' event, Means st call answer event ∧ Step t event t' ∧ Represents st' chains' t' := by
  have hallowed := hcall.allowed
  have hbound := hcall.bound
  rw [← hrefs] at hallowed hbound
  obtain ⟨answer', st₁, hresult, hstep⟩ := perform_spec h hcall.fresh call hallowed
  rw [hcall.result] at hresult
  have hpair := Prod.mk.inj (Except.ok.inj hresult)
  rw [← hpair.1, ← hpair.2] at hstep
  exact hstep hbound

/-- Over any run the memory represents a table that counts the references of the callers. -/
theorem Run.represents {refs : Addr → ℕ} (h : Run st refs) :
    ∃ chains t, Represents st chains t ∧ t.Sound ∧ t.references = refs := by
  induction h with
  | init =>
    refine ⟨fun _ => [], fun _ => none, represents_init, ⟨?_, ?_⟩, rfl⟩
    · intro id id' value n n' hid
      cases hid
    · intro id value hid
      cases hid
  | call _ hcall ih =>
    obtain ⟨chains, t, hrep, hsound, hrefs⟩ := ih
    obtain ⟨chains', t', event, hmeans, hstep, hrep'⟩ := hcall.step hrep hrefs
    refine ⟨chains', t', hrep', hstep.sound hsound, ?_⟩
    rw [hstep.references, hmeans.count, hrefs]

/-- A string keeps its handle as long as there are references to it. -/
theorem WhileLive.keeps {refs refs₁ : Addr → ℕ} {st₁ : State} {id : Addr} {ss : SharedString}
    (h : Run st refs) (hid : st.memory id = some ss) (hlive : WhileLive id st refs st₁ refs₁) :
    Run st₁ refs₁ ∧ ∃ ss₁, st₁.memory id = some ss₁ ∧ ss₁.string = ss.string := by
  induction hlive with
  | here => exact ⟨h, ss, hid, rfl⟩
  | call _ hcall hnext ih =>
    obtain ⟨hrun, ss₁, hss₁, hstring⟩ := ih
    refine ⟨hrun.call hcall, ?_⟩
    obtain ⟨chains, t, hrep, _, hrefs⟩ := hrun.represents
    obtain ⟨chains', t', event, hmeans, hstep, hrep'⟩ := hcall.step hrep hrefs
    have hreferences : t'.references id ≠ 0 := by
      rwa [hstep.references, ← hmeans.count, hrefs]
    obtain ⟨n, hentry⟩ := hstep.keeps id ss₁.string _ (hrep.interned hss₁) hreferences
    obtain ⟨ss₂, hss₂, hstring₂, _⟩ := hrep'.live hentry
    exact ⟨ss₂, hss₂, hstring₂.trans hstring⟩

theorem queryRefcount_spec (id : Addr) (ss : SharedString) (hid : st.memory id = some ss)
    (hlt : ss.references < 2^31) :
    ∃ n, queryRefcount st id = .ok n ∧ n.toInt = ss.references := by
  refine ⟨(ss.refcount &&& ~~~topBit).toUInt32.toInt32, ?_, ?_⟩
  · unfold queryRefcount
    rw [State.load_ok st id ss hid]
    rfl
  · have hword : (ss.refcount &&& ~~~topBit).toUInt32.toBitVec.toNat = ss.references := by
      change (ss.refcount &&& ~~~topBit).toUInt32.toNat = _
      rw [UInt64.toNat_toUInt32]
      exact Nat.mod_eq_of_lt (by
        change ss.references < 2^32
        omega)
    change (ss.refcount &&& ~~~topBit).toUInt32.toBitVec.toInt = _
    rw [BitVec.toInt_eq_toNat_of_lt (by omega), hword]

variable {refs : Addr → ℕ}

/-- Over any run each slot has the chain of the entries whose strings have its hash, tagged at the
head and linked back elsewhere; no string has two entries; there is an entry as long as there are
references, and their number is the one that is queried; no call fails; exactly the strings with
references are found, and adding one of them gives the same handle until the last reference is given
back. -/
theorem shared_strings_sound (h : Run st refs) :
    ∃ chains : Slot → List Addr,
      (∀ slot, Chain (st.node slot) (st.hashTable slot) (chains slot)) ∧
      (∀ slot id, id ∈ chains slot ↔
        ∃ ss, st.memory id = some ss ∧ hashstr ss.string = slot) ∧
      (∀ id id' ss ss', st.memory id = some ss → st.memory id' = some ss' →
        ss.string = ss'.string → id = id') ∧
      (∀ id, st.memory id = none ↔ refs id = 0) ∧
      (∀ id, refs id ≠ 0 → refs id < 2^31 →
        ∃ n, queryRefcount st id = .ok n ∧ n.toInt = refs id) ∧
      (∀ malloc call, st.memory malloc = none → Allowed refs call →
        ∃ answer st', perform malloc st call = .ok (answer, st')) ∧
      (∀ str contents answer, str.Live refs → st.contents str = .ok contents →
        findString st str = .ok answer →
          ∀ id, answer = some id ↔ ∃ ss, st.memory id = some ss ∧ ss.string = contents) ∧
      (∀ id ss st₁ refs₁ malloc str answer st₂, st.memory id = some ss →
        WhileLive id st refs st₁ refs₁ → st₁.contents str = .ok ss.string →
          Called malloc st₁ refs₁ (.addString str) answer st₂ → answer = some id) := by
  obtain ⟨chains, t, hrep, hsound, hrefs⟩ := h.represents
  have hcount : ∀ id ss, st.memory id = some ss → ss.references = refs id := by
    intro id ss hid
    rw [← hrefs, references_eq (hrep.interned hid)]
  refine ⟨chains, hrep.chain, ?_, ?_, ?_, ?_, ?_, ?_, ?_⟩
  · intro slot id
    constructor
    · exact hrep.load
    · intro hid
      obtain ⟨ss, hss, hslot⟩ := hid
      exact hslot ▸ hrep.mem hss
  · intro id id' ss ss' hid hid' hsame
    have hentry := hrep.interned hid
    rw [hsame] at hentry
    exact hsound.unique id id' ss'.string _ _ hentry (hrep.interned hid')
  · intro id
    constructor
    · intro hnone
      rw [← hrefs]
      unfold Table.references
      rw [hrep.entry, hnone]
      rfl
    · intro hzero
      cases hid : st.memory id with
      | none => rfl
      | some ss =>
        have hentry := hrep.interned hid
        rw [hcount id ss hid, hzero] at hentry
        exact absurd hentry (hsound.positive id ss.string)
  · intro id hlive hlt
    rw [← hrefs] at hlive
    obtain ⟨_, _, _, ss, hss, _, _⟩ := hrep.of_references id (Nat.pos_of_ne_zero hlive)
    rw [← hcount id ss hss] at hlt ⊢
    exact queryRefcount_spec id ss hss hlt
  · intro malloc call hfresh hallowed
    obtain ⟨answer, st', hresult, _⟩ := perform_spec hrep hfresh call (hrefs.symm ▸ hallowed)
    exact ⟨answer, st', hresult⟩
  · intro str contents answer hlive hstr hfind id
    obtain ⟨answer', hfind', hstep⟩ := findString_spec hrep hstr
    rw [hfind] at hfind'
    rw [Except.ok.inj hfind', hstep.find_iff hsound id]
    constructor
    · intro hentry
      obtain ⟨n, hentry⟩ := hentry
      obtain ⟨ss, hss, hstring, _⟩ := hrep.live hentry
      exact ⟨ss, hss, hstring⟩
    · intro hid
      obtain ⟨ss, hss, hstring⟩ := hid
      exact ⟨ss.references, hstring ▸ hrep.interned hss⟩
  · intro id ss st₁ refs₁ malloc str answer st₂ hid hlive hstr hcall
    obtain ⟨hrun, ss₁, hss₁, hstring⟩ := WhileLive.keeps h hid hlive
    obtain ⟨chains₁, t₁, hrep₁, hsound₁, hrefs₁⟩ := hrun.represents
    obtain ⟨_, _, event, hmeans, hstep, _⟩ := hcall.step hrep₁ hrefs₁
    cases answer with
    | none => cases event <;> exact hmeans.elim
    | some answer =>
      cases event with
      | acquire contents id' =>
        obtain ⟨hcontents, hanswer⟩ := hmeans
        rw [hstr] at hcontents
        have hentry := hrep₁.interned hss₁
        rw [hstring, Except.ok.inj hcontents] at hentry
        rw [hanswer, hstep.acquire_known hsound₁ id _ hentry]
      | share => exact hmeans.elim
      | release => exact hmeans.elim
      | find => exact hmeans.elim

end Steps

section Example

/-- A call that returns. -/
def after (malloc : Addr) (st : State) (call : Call) : Option Addr × State :=
  match perform malloc st call with
  | .ok result => result
  | .error _ => (none, st)

/-- No call adds more than one reference. -/
theorem refsAfter_le (refs : Addr → ℕ) (call : Call) (answer : Option Addr) (id : Addr) :
    refsAfter refs call answer id ≤ refs id+1 := by
  have hupdate : ∀ other n, n ≤ refs other+1 → Function.update refs other n id ≤ refs id+1 := by
    intro other n hn
    by_cases hsame : id = other
    · rw [hsame, Function.update_self]
      exact hn
    · rw [Function.update_of_ne hsame]
      exact Nat.le_succ _
  cases call with
  | addString str =>
    cases answer with
    | none => exact Nat.le_succ _
    | some other => exact hupdate other _ (Nat.le_refl _)
  | addRefcount other => exact hupdate other _ (Nat.le_refl _)
  | findString str => exact Nat.le_succ _
  | freeStringShared other =>
    apply hupdate other
    omega

theorem Run.after {st : State} {refs : Addr → ℕ} (h : Run st refs) (malloc : Addr) (call : Call)
    (hfresh : (st.memory malloc).isNone = true) (hallowed : Allowed refs call)
    (hsmall : ∀ id, refs id+1 < 2^63) (hok : (perform malloc st call).isOk = true) :
    Run (after malloc st call).2 (refsAfter refs call (after malloc st call).1) := by
  refine h.call ⟨Option.isNone_iff_eq_none.mp hfresh, hallowed, ?_, ?_⟩
  · unfold SharedStrings.after
    cases hresult : perform malloc st call with
    | ok result => rfl
    | error fault =>
      rw [hresult] at hok
      cases hok
  · intro id
    exact Nat.lt_of_le_of_lt (refsAfter_le refs call _ id) (hsmall id)

/-- Two strings in one chain, of which the head is freed. -/
theorem shared_strings_sound_collision :
    ∃ (st : State) (refs : Addr → ℕ) (chains : Slot → List Addr),
      Run st refs ∧ refs 5 = 0 ∧ refs 7 = 1 ∧
      (∀ slot, Chain (st.node slot) (st.hashTable slot) (chains slot)) ∧
      (∀ slot id, id ∈ chains slot ↔
        ∃ ss, st.memory id = some ss ∧ hashstr ss.string = slot) ∧
      (∀ id id' ss ss', st.memory id = some ss → st.memory id' = some ss' →
        ss.string = ss'.string → id = id') ∧
      (∀ id, st.memory id = none ↔ refs id = 0) ∧
      (∃ n, queryRefcount st 7 = .ok n ∧ n.toInt = 1) ∧
      (∀ malloc call, st.memory malloc = none → Allowed refs call →
        ∃ answer st', perform malloc st call = .ok (answer, st')) ∧
      (∀ str contents answer, str.Live refs → st.contents str = .ok contents →
        findString st str = .ok answer →
          ∀ id, answer = some id ↔ ∃ ss, st.memory id = some ss ∧ ss.string = contents) ∧
      (∀ id ss st₁ refs₁ malloc str answer st₂, st.memory id = some ss →
        WhileLive id st refs st₁ refs₁ → st₁.contents str = .ok ss.string →
          Called malloc st₁ refs₁ (.addString str) answer st₂ → answer = some id) := by
  let first : Str := .other ⟨List.replicate 20 97 ++ [98], by decide⟩
  let second : Str := .other ⟨List.replicate 20 97 ++ [99], by decide⟩
  let st₁ := (after 5 State.init (.addString first)).2
  let st₂ := (after 7 st₁ (.addString second)).2
  let st₃ := (after 9 st₂ (.freeStringShared 5)).2
  let refs₁ := refsAfter (fun _ => 0) (.addString first) (after 5 State.init (.addString first)).1
  let refs₂ := refsAfter refs₁ (.addString second) (after 7 st₁ (.addString second)).1
  let refs₃ := refsAfter refs₂ (.freeStringShared 5) (after 9 st₂ (.freeStringShared 5)).1
  have hsmall₁ : ∀ id, refs₁ id ≤ 1 := refsAfter_le _ _ _
  have hsmall₂ : ∀ id, refs₂ id ≤ 2 := fun id =>
    Nat.le_trans (refsAfter_le _ _ _ id) (Nat.succ_le_succ (hsmall₁ id))
  have hrun₁ : Run st₁ refs₁ := Run.init.after 5 (.addString first) (by decide +kernel) trivial
    (fun _ => by decide) (by decide +kernel)
  have hrun₂ : Run st₂ refs₂ := hrun₁.after 7 (.addString second) (by decide +kernel) trivial
    (fun id => by have hle := hsmall₁ id; omega) (by decide +kernel)
  have hlive : 0 < refs₂ 5 := by decide +kernel
  have hrun₃ : Run st₃ refs₃ := hrun₂.after 9 (.freeStringShared 5) (by decide +kernel) hlive
    (fun id => by have hle := hsmall₂ id; omega) (by decide +kernel)
  have hzero : refs₃ 5 = 0 := by decide +kernel
  have hone : refs₃ 7 = 1 := by decide +kernel
  obtain ⟨chains, hchain, hmem, hunique, hnone, hquery, hrest⟩ := shared_strings_sound hrun₃
  obtain ⟨n, hn, hcount⟩ := hquery 7 (by rw [hone]; decide) (by rw [hone]; decide)
  rw [hone] at hcount
  exact ⟨st₃, refs₃, chains, hrun₃, hzero, hone, hchain, hmem, hunique, hnone, ⟨n, hn, hcount⟩,
    hrest⟩

end Example

end LibAtrinik.SharedStrings

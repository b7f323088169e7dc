import LibAtrinik.CurlTransfer

namespace LibAtrinik.CurlTransfer

section Pins

variable {Key : Type} {cfg : Setting Key} {s s' : State} {n : ℕ}

/-- The keys of the certificates that were shown since the last handshake began, as the calls and
what they returned tell. -/
def shown (keys : List Key) : Event Key × ℕ → List Key
  | (.sslCtx _, n) => if n = 0 then [] else keys
  | (.sslVerify _ _ (some ⟨_, some key⟩), n) => if n = 1 then keys ++ [key] else keys
  | _ => keys

/-- Bit `i` of the chain stands for certificate `i`. -/
structure Marked (trusted : List Key) (r : Request) (keys : List Key) : Prop where
  count : r.certId = keys.length
  short : keys.length ≤ 32
  bits : ∀ i, r.certChain.testBit i = true ↔ ∃ key, keys[i]? = some key ∧ key ∈ trusted

/-- There are no bits but those of the certificates. -/
theorem Marked.testBit_of_le {r : Request} {keys : List Key} {i : ℕ}
    (h : Marked cfg.trusted r keys) (hi : keys.length ≤ i) : r.certChain.testBit i = false := by
  by_contra hbit
  obtain ⟨key, hkey, _⟩ := (h.bits i).mp (by simpa using hbit)
  rw [List.getElem?_eq_none hi] at hkey
  cases hkey

theorem Marked.chain_ne_zero {r : Request} {keys : List Key} (h : Marked cfg.trusted r keys) :
    r.certChain ≠ 0 ↔ ∃ key ∈ keys, key ∈ cfg.trusted := by
  constructor
  · intro hne
    obtain ⟨i, hi⟩ := Nat.exists_testBit_of_ne_zero hne
    obtain ⟨key, hkey, hpin⟩ := (h.bits i).mp hi
    exact ⟨key, List.mem_of_getElem? hkey, hpin⟩
  · rintro ⟨key, hkey, hpin⟩ hzero
    obtain ⟨i, hi⟩ := List.mem_iff_getElem?.mp hkey
    have hbit := (h.bits i).mpr ⟨key, hi, hpin⟩
    rw [hzero, Nat.zero_testBit] at hbit
    cases hbit

/-- What the calls that see no certificate leave alone. -/
structure SameCerts (r r' : Request) : Prop where
  certId : r'.certId = r.certId
  certChain : r'.certChain = r.certChain
  certCn : r'.certCn = r.certCn
  trust : r'.trust = r.trust

theorem mutex_sameCerts {io : Io} {refused : ℕ} {inside : State → State × ℕ}
    (hinside : ∀ s, SameCerts s.request (inside s).1.request)
    (h : withMutex s (fun s => verified cfg io s refused inside) = some (s', n)) :
    SameCerts s.request s'.request := by
  obtain ⟨_, hv⟩ := withMutex_eq_some.mp h
  rcases verified_cases (s := s) io refused inside with ⟨_, heq⟩ | ⟨_, heq⟩
  · have hsame := hinside ⟨s.request, (curlVerifyCertChain cfg io s.request s.files).2⟩
    rw [← heq, hv] at hsame
    exact hsame
  · rw [heq] at hv
    rw [← (Prod.mk.inj hv).1]
    exact ⟨rfl, rfl, rfl, rfl⟩

theorem Marked.same {r r' : Request} {keys : List Key} (h : Marked cfg.trusted r keys)
    (hs : SameCerts r r') : Marked cfg.trusted r' keys := by
  refine ⟨?_, h.short, ?_⟩
  · rw [hs.certId]
    exact h.count
  · rw [hs.certChain]
    exact h.bits

/-- After every call the chain stands for the certificates that have been shown, and a common
name is known if there are any. -/
structure Shown (cfg : Setting Key) (r : Request) (keys : List Key) : Prop where
  marked : Marked cfg.trusted r keys
  named : r.certId ≠ 0 → r.certCn ≠ none

theorem Shown.same {r r' : Request} {keys : List Key} (h : Shown cfg r keys)
    (hs : SameCerts r r') : Shown cfg r' keys := by
  refine ⟨h.marked.same hs, ?_⟩
  rw [hs.certId, hs.certCn]
  exact h.named

/-- A handshake that is allowed to begin starts with no certificates. -/
theorem curlSslCtx_shown {io : Io} {keys : List Key} (h : Shown cfg s.request keys)
    (hc : curlSslCtx cfg io s = some (s', n)) :
    Shown cfg s'.request (if n = 0 then [] else keys) := by
  obtain ⟨_, hc⟩ := withMutex_eq_some.mp hc
  rcases verified_cases (s := s) io sslConnectError _ with ⟨_, heq⟩ | ⟨_, heq⟩
  · rw [heq] at hc
    rw [← (Prod.mk.inj hc).1, ← (Prod.mk.inj hc).2, if_pos rfl]
    refine ⟨⟨rfl, Nat.zero_le _, fun i => ?_⟩, fun hne => absurd rfl hne⟩
    rw [Nat.zero_testBit, List.getElem?_nil]
    exact ⟨fun hno => absurd hno Bool.false_ne_true, fun ⟨_, hno, _⟩ => by cases hno⟩
  · rw [heq] at hc
    rw [← (Prod.mk.inj hc).1, ← (Prod.mk.inj hc).2, if_neg (by decide)]
    exact h.same ⟨rfl, rfl, rfl, rfl⟩

/-- Verification passes only where no certificate has been shown, or a trusted one has been. -/
theorem Shown.of_verified {keys : List Key} {io : Io} (h : Shown cfg s.request keys)
    (hok : (curlVerifyCertChain cfg io s.request s.files).1 = true) :
    keys = [] ∨ ∃ key ∈ keys, key ∈ cfg.trusted := by
  rcases curlVerifyCertChain_cases io s.request s.files with ⟨hid, _⟩ |
    ⟨_, hfalse⟩ | ⟨_, _, path, _, hacc⟩
  · left
    rw [h.marked.count] at hid
    exact List.length_eq_zero_iff.mp hid
  · rw [hfalse] at hok
    cases hok
  · right
    exact h.marked.chain_ne_zero.mp hacc.chain_ne_zero

variable [DecidableEq Key]

theorem chainBit_eq (trusted : List Key) (key : Key) (certId chain : ℕ) :
    chainBit trusted key certId chain = if key ∈ trusted then chain ||| 2^certId else chain := by
  unfold chainBit
  induction trusted generalizing chain with
  | nil => rfl
  | cons pin trusted ih =>
    rw [List.foldl_cons, ih]
    by_cases hpin : key = pin
    · rw [if_pos hpin, if_pos (List.mem_cons.mpr (Or.inl hpin)), Nat.or_assoc, Nat.or_self, ite_self]
    · rw [if_neg hpin]
      simp only [List.mem_cons, hpin, false_or]

theorem Marked.count_one {r : Request} {keys : List Key} (h : Marked cfg.trusted r keys)
    (hlt : keys.length < 32) (key : Key) (cn : Option Bytes) :
    Marked cfg.trusted { r with
      certCn := cn
      certChain := chainBit cfg.trusted key r.certId r.certChain
      certId := r.certId+1 } (keys ++ [key]) := by
  refine ⟨?_, ?_, fun i => ?_⟩
  · rw [List.length_append, List.length_singleton, ← h.count]
  · rw [List.length_append, List.length_singleton]
    exact hlt
  · dsimp only
    rw [chainBit_eq, h.count]
    rcases lt_trichotomy i keys.length with hi | rfl | hi
    · -- an earlier certificate
      rw [List.getElem?_append_left hi, ← h.bits i]
      split_ifs with hpin
      · rw [Nat.testBit_or, Nat.testBit_two_pow_of_ne (by omega), Bool.or_false]
      · rfl
    · have hold := h.testBit_of_le le_rfl
      rw [List.getElem?_append_right le_rfl, Nat.sub_self, List.getElem?_cons_zero]
      split_ifs with hpin
      · rw [Nat.testBit_or, Nat.testBit_two_pow_self, Bool.or_true]
        exact ⟨fun _ => ⟨key, rfl, hpin⟩, fun _ => rfl⟩
      · rw [hold]
        refine ⟨fun hno => absurd hno Bool.false_ne_true, ?_⟩
        rintro ⟨key', heq, hmem⟩
        rw [Option.some.inj heq] at hpin
        exact absurd hmem hpin
    · have hold := h.testBit_of_le hi.le
      have hnone : (keys ++ [key])[i]? = none := List.getElem?_eq_none (by
        rw [List.length_append, List.length_singleton]
        omega)
      have hbit : (if key ∈ cfg.trusted then r.certChain ||| 2^keys.length else
          r.certChain).testBit i = false := by
        split_ifs
        · rw [Nat.testBit_or, hold, Nat.testBit_two_pow_of_ne (by omega), Bool.or_false]
        · exact hold
      rw [hbit, hnone]
      refine ⟨fun hno => absurd hno Bool.false_ne_true, ?_⟩
      rintro ⟨_, hno, _⟩
      cases hno

theorem countCert_shown {keys : List Key} {cn : Bytes} {key : Key} (h : Shown cfg s.request keys)
    (hc : countCert cfg s cn key = (s', n)) :
    Shown cfg s'.request (if n = 1 then keys ++ [key] else keys) := by
  unfold countCert at hc
  dsimp only at hc
  have hcount := h.marked.count
  split_ifs at hc with hfull
  · rw [← (Prod.mk.inj hc).1, ← (Prod.mk.inj hc).2, if_neg Nat.zero_ne_one]
    exact ⟨⟨hcount, h.marked.short, h.marked.bits⟩, fun _ => Option.some_ne_none cn⟩
  · rw [← (Prod.mk.inj hc).1, ← (Prod.mk.inj hc).2, if_pos rfl]
    have hshort := h.marked.short
    exact ⟨h.marked.count_one (by omega) key (some cn), fun _ => Option.some_ne_none cn⟩

/-- Where there are trusted keys to check against, every call keeps count of the certificates. -/
theorem step_shown {keys : List Key} {event : Event Key} (hpins : cfg.trusted ≠ [])
    (htrust : s.request.trust ≠ .system) (h : Shown cfg s.request keys)
    (hstep : step cfg s event = some (s', n)) :
    Shown cfg s'.request (shown keys (event, n)) ∧ s'.request.trust = s.request.trust := by
  cases event with
  | sslCtx io => exact ⟨curlSslCtx_shown h hstep, (curlSslCtx_sameData hstep).trust⟩
  | sslVerify preverifyOk hasRequest cert =>
    refine ⟨?_, (curlSslVerify_sameData hstep).trust⟩
    rcases curlSslVerify_cases hstep with ⟨rfl, hn | hsys⟩ | ⟨hnil, _⟩ | ⟨hnil, _⟩ |
      ⟨_, _, cn, key, rfl, hc⟩
    · subst hn
      have hkeys : shown keys ((.sslVerify preverifyOk hasRequest cert : Event Key), 0) = keys := by
        match cert with
        | none | some ⟨_, none⟩ => rfl
        | some ⟨_, some key⟩ => rfl
      rw [hkeys]
      exact h
    · exact absurd hsys htrust
    · exact absurd hnil hpins
    · exact absurd hnil hpins
    · exact countCert_shown h hc
  | body io buffer size nitems =>
    have hc : curlCallback cfg io buffer size nitems s = some (s', n) := hstep
    have hsame := mutex_sameCerts (fun s => by dsimp only; split_ifs <;> exact ⟨rfl, rfl, rfl, rfl⟩) hc
    exact ⟨h.same hsame, hsame.trust⟩
  | header io buffer size nitems =>
    have hc : curlHeaderCallback cfg io buffer size nitems s = some (s', n) := hstep
    have hsame := mutex_sameCerts (fun s => by dsimp only; split_ifs <;> exact ⟨rfl, rfl, rfl, rfl⟩) hc
    exact ⟨h.same hsame, hsame.trust⟩
  | progress io =>
    have hc : curlProgress cfg io s = some (s', n) := hstep
    have hsame := mutex_sameCerts (fun s => ⟨rfl, rfl, rfl, rfl⟩) hc
    exact ⟨h.same hsame, hsame.trust⟩
  | setMaxBody maximum =>
    have hset : curlRequestSetMaxBody maximum s = some (s', n) := hstep
    rw [← (Prod.mk.inj (withMutex_eq_some.mp hset).2).1]
    exact ⟨h.same ⟨rfl, rfl, rfl, rfl⟩, rfl⟩
  | free =>
    have hset : curlRequestFree s = some (s', n) := hstep
    rw [← (Prod.mk.inj (withMutex_eq_some.mp hset).2).1]
    exact ⟨h.same ⟨rfl, rfl, rfl, rfl⟩, rfl⟩

theorem run_shown {keys : List Key} {events : List (Event Key)} {results : List ℕ}
    (hpins : cfg.trusted ≠ []) (htrust : s.request.trust ≠ .system) (h : Shown cfg s.request keys)
    (hrun : run cfg s events = some (s', results)) :
    Shown cfg s'.request ((events.zip results).foldl shown keys) := by
  induction events generalizing s keys results with
  | nil =>
    obtain ⟨rfl, rfl⟩ := Prod.mk.inj (Option.some.inj hrun)
    exact h
  | cons event events ih =>
    obtain ⟨mid, n, rest, hstep, hrest, rfl⟩ := run_cons_eq_some hrun
    obtain ⟨hmid, hsame⟩ := step_shown hpins htrust h hstep
    exact ih (by rwa [hsame]) hmid hrest

/-- The calls with which libcurl hands over data. -/
def Event.isData : Event Key → Bool
  | .body _ _ _ _ | .header _ _ _ _ => true
  | _ => false

/-- With a trust store of its own, a request takes no byte of a response over a connection on which
certificates were shown and none of them is trusted. -/
theorem data_only_from_pinned (cfg : Setting Key) (hpins : cfg.trusted ≠ []) (trust : Trust)
    (htrust : trust ≠ .system) (files : Files) (events : List (Event Key)) (s s' : State)
    (results : List ℕ) (event : Event Key) (n : ℕ)
    (hrun : run cfg ⟨curlRequestCreate trust, files⟩ events = some (s, results))
    (hstep : step cfg s event = some (s', n)) (hdata : event.isData = true) (hn : n ≠ 0) :
    (events.zip results).foldl shown [] = [] ∨
      ∃ key ∈ (events.zip results).foldl shown [], key ∈ cfg.trusted := by
  have hstart : Shown cfg (curlRequestCreate trust) [] := by
    refine ⟨⟨rfl, Nat.zero_le _, fun i => ?_⟩, fun hne => absurd rfl hne⟩
    rw [List.getElem?_nil]
    exact ⟨fun hno => absurd hno (by rw [curlRequestCreate, Nat.zero_testBit]; decide),
      fun ⟨_, hno, _⟩ => by cases hno⟩
  have hshown := run_shown hpins (s := ⟨curlRequestCreate trust, files⟩) htrust hstart hrun
  have hverified {io : Io} {inside : State → State × ℕ}
      (hv : withMutex s (fun s => verified cfg io s 0 inside) = some (s', n)) :
      (curlVerifyCertChain cfg io s.request s.files).1 = true := by
    obtain ⟨_, heq⟩ := withMutex_eq_some.mp hv
    rcases verified_cases (s := s) io 0 inside with ⟨hok, _⟩ | ⟨_, hrefused⟩
    · exact hok
    · rw [hrefused] at heq
      exact absurd (Prod.mk.inj heq).2.symm hn
  cases event with
  | body io buffer size nitems =>
    have hc : curlCallback cfg io buffer size nitems s = some (s', n) := hstep
    exact hshown.of_verified (hverified hc)
  | header io buffer size nitems =>
    have hc : curlHeaderCallback cfg io buffer size nitems s = some (s', n) := hstep
    exact hshown.of_verified (hverified hc)
  | sslCtx | sslVerify | progress | setMaxBody | free => cases hdata

theorem data_only_from_pinned_two :
    ∃ s, run oneKey ⟨curlRequestCreate .application, fun _ => none⟩
        [.sslVerify true true (some ⟨some [65], some 8⟩),
          .sslVerify true true (some ⟨some [66], some 7⟩)] = some (s, [1, 1]) ∧
      (([8, 7] : List ℕ) = [] ∨ ∃ key ∈ [8, 7], key ∈ oneKey.trusted) :=
  ⟨_, rfl, data_only_from_pinned oneKey (by decide) .application (by decide) (fun _ => none)
    [.sslVerify true true (some ⟨some [65], some 8⟩),
      .sslVerify true true (some ⟨some [66], some 7⟩)] _ _ [1, 1] (.body goodIo [1] 1 1) 1 rfl rfl
    rfl (by decide)⟩

end Pins

section Chains

/-- What all requests share: the trust stores, SHA-256 and the data directory. -/
structure Shared (Key : Type) where
  pins : Trust → List Key
  sha256 : Bytes → Option Bytes
  dataDir : List Char

/-- Any number of requests, and the files. -/
structure World where
  request : ℕ → Request
  files : Files

variable {Key : Type}

def Shared.setting (cfg : Shared Key) (trust : Trust) : Setting Key where
  trusted := cfg.pins trust
  sha256 := cfg.sha256
  dataDir := cfg.dataDir

/-- The file that belongs to the server of a request. -/
def Shared.pathOf (cfg : Shared Key) (r : Request) : Option (List Char) :=
  r.certCn.bind (chainPath (cfg.setting r.trust))

/-- A call for one of the requests. -/
def World.step [DecidableEq Key] (cfg : Shared Key) (w : World) (i : ℕ) (event : Event Key) :
    Option (World × ℕ) :=
  (CurlTransfer.step (cfg.setting (w.request i).trust) ⟨w.request i, w.files⟩ event).map fun r =>
    (⟨Function.update w.request i r.1.request, r.1.files⟩, r.2)

/-- Calls for all of the requests, in any order. -/
def World.run [DecidableEq Key] (cfg : Shared Key) : World → List (ℕ × Event Key) → Option World
  | w, [] => some w
  | w, (i, event) :: events => do
    let (w, _) ← w.step cfg i event
    World.run cfg w events

/-- The files are used as the callback is told. -/
def Event.io? : Event Key → Option Io
  | .sslCtx io | .body io _ _ _ | .header io _ _ _ | .progress io => some io
  | _ => none

/-- The operations on the files succeed. -/
def Event.Undisturbed (e : Event Key) : Prop :=
  ∀ io, e.io? = some io → io.opensRead = true ∧ io.opensWrite = true ∧ io.writes = true

/-- The call has let another handshake begin, or has taken bytes of a response. -/
def Event.Passed : Event Key → ℕ → Prop
  | .sslCtx _, n => n = 0
  | .body _ _ _ _, n | .header _ _ _ _, n => n ≠ 0
  -- `curl_progress` returns 0 for a chain that is refused, and libcurl goes on after a 0
  | _, _ => False

theorem chainOf_chainBytes (chain : ℕ) (h : chain < 2^32) : chainOf (chainBytes chain) = chain := by
  unfold chainOf chainBytes
  have hlen : (BigEndian.bytes 4 chain).reverse.length = 4 := by
    rw [List.length_reverse, BigEndian.length_bytes]
  rw [List.take_of_length_le hlen.le, List.reverse_reverse]
  exact BigEndian.value_bytes 4 chain (by omega)

theorem length_chainBytes (chain : ℕ) : (chainBytes chain).length = 4 := by
  rw [chainBytes, List.length_reverse, BigEndian.length_bytes]

/-- The file at a path pins a chain. -/
def PinnedTo (files : Files) (path : List Char) (chain : ℕ) : Prop :=
  chain < 2^32 ∧ files path = some (chainBytes chain)

variable {cfg : Setting Key} {s s' : State} {n : ℕ} {r : Request} {files files' : Files} {io : Io}
  {path : List Char} {chain : ℕ}

theorem saveChain_path (hwrite : io.opensWrite = true) (hok : io.writes = true)
    (path path' : List Char) :
    saveChain files io path chain path' =
      if path' = path then some (chainBytes chain) else files path' := by
  rw [saveChain, if_pos hwrite, if_pos hok, Function.update_apply]

theorem PinnedTo.chain_eq (h : PinnedTo files path chain) (hread : io.opensRead = true)
    (hacc : Accepts cfg io r files files' path) : r.certChain = chain := by
  have hknown := hacc.known _ hread h.2 (length_chainBytes chain).ge
  rw [← hknown, chainOf_chainBytes chain h.1]

/-- No verification moves a pin. -/
theorem PinnedTo.verify (h : PinnedTo files path chain) (hread : io.opensRead = true)
    (hwrite : io.opensWrite = true) (hok : io.writes = true) :
    PinnedTo (curlVerifyCertChain cfg io r files).2 path chain := by
  rcases @curlVerifyCertChain_cases Key cfg io r files with ⟨_, heq⟩ | ⟨_, heq⟩ |
    ⟨_, files', path', heq, hacc⟩
  · rw [heq]
    exact h
  · rw [heq]
    exact h
  · rw [heq]
    refine ⟨h.1, ?_⟩
    dsimp only
    rw [hacc.saved, saveChain_path hwrite hok]
    split_ifs with hpath
    · subst hpath
      rw [h.chain_eq hread hacc]
    · exact h.2

/-- What a request accepts is pinned from then on. -/
theorem Accepts.pins (hacc : Accepts cfg io r files files' path) (hwrite : io.opensWrite = true)
    (hok : io.writes = true) (hlt : r.certChain < 2^32) : PinnedTo files' path r.certChain := by
  refine ⟨hlt, ?_⟩
  rw [hacc.saved, saveChain_path hwrite hok, if_pos rfl]

theorem mutex_files {refused : ℕ} {inside : State → State × ℕ}
    (hinside : ∀ s, (inside s).1.files = s.files)
    (h : withMutex s (fun s => verified cfg io s refused inside) = some (s', n)) :
    s'.files = (curlVerifyCertChain cfg io s.request s.files).2 ∧
      ((curlVerifyCertChain cfg io s.request s.files).1 = true ∨ n = refused) := by
  obtain ⟨_, hv⟩ := withMutex_eq_some.mp h
  rcases verified_cases (s := s) io refused inside with ⟨hok, heq⟩ | ⟨_, heq⟩
  · rw [heq] at hv
    refine ⟨?_, Or.inl hok⟩
    have hfiles := hinside ⟨s.request, (curlVerifyCertChain cfg io s.request s.files).2⟩
    rwa [hv] at hfiles
  · rw [heq] at hv
    rw [← (Prod.mk.inj hv).1]
    exact ⟨rfl, Or.inr (Prod.mk.inj hv).2.symm⟩

/-- The certificates that a request has seen fit into its chain. -/
def Bounded (r : Request) : Prop := r.certId ≤ 32 ∧ r.certChain < 2^32

theorem SameCerts.bounded {r r' : Request} (hs : SameCerts r r') (h : Bounded r) : Bounded r' := by
  unfold Bounded
  rw [hs.certId, hs.certChain]
  exact h

variable [DecidableEq Key]

/-- A call either leaves the files alone, or verifies the certificates of its request. -/
theorem step_files {event : Event Key} (h : step cfg s event = some (s', n)) :
    (event.io? = none ∧ s'.files = s.files ∧ ¬event.Passed n) ∨
      ∃ io, event.io? = some io ∧ s'.files = (curlVerifyCertChain cfg io s.request s.files).2 ∧
        (event.Passed n → (curlVerifyCertChain cfg io s.request s.files).1 = true) := by
  cases event with
  | sslCtx io =>
    have hc : curlSslCtx cfg io s = some (s', n) := h
    obtain ⟨hfiles, hpass⟩ := mutex_files (fun s => rfl) hc
    refine Or.inr ⟨io, rfl, hfiles, fun hn => hpass.resolve_right ?_⟩
    rw [show n = 0 from hn]
    decide
  | body io buffer size nitems =>
    have hc : curlCallback cfg io buffer size nitems s = some (s', n) := h
    obtain ⟨hfiles, hpass⟩ := mutex_files (fun s => by dsimp only; split_ifs <;> rfl) hc
    exact Or.inr ⟨io, rfl, hfiles, fun hn => hpass.resolve_right hn⟩
  | header io buffer size nitems =>
    have hc : curlHeaderCallback cfg io buffer size nitems s = some (s', n) := h
    obtain ⟨hfiles, hpass⟩ := mutex_files (fun s => by dsimp only; split_ifs <;> rfl) hc
    exact Or.inr ⟨io, rfl, hfiles, fun hn => hpass.resolve_right hn⟩
  | progress io =>
    have hc : curlProgress cfg io s = some (s', n) := h
    obtain ⟨hfiles, _⟩ := mutex_files (fun s => rfl) hc
    exact Or.inr ⟨io, rfl, hfiles, fun hno => hno.elim⟩
  | sslVerify preverifyOk hasRequest cert =>
    refine Or.inl ⟨rfl, ?_, fun hno => hno⟩
    rcases curlSslVerify_cases h with ⟨rfl, _⟩ | ⟨_, _, _, _, _, rfl⟩ | ⟨_, _, rfl⟩ |
      ⟨_, _, cn, key, _, hc⟩
    · rfl
    · rfl
    · rfl
    · unfold countCert at hc
      dsimp only at hc
      split_ifs at hc <;> rw [← (Prod.mk.inj hc).1]
  | setMaxBody maximum =>
    have hset : curlRequestSetMaxBody maximum s = some (s', n) := h
    rw [← (Prod.mk.inj (withMutex_eq_some.mp hset).2).1]
    exact Or.inl ⟨rfl, rfl, fun hno => hno⟩
  | free =>
    have hset : curlRequestFree s = some (s', n) := h
    rw [← (Prod.mk.inj (withMutex_eq_some.mp hset).2).1]
    exact Or.inl ⟨rfl, rfl, fun hno => hno⟩

theorem step_pinned {event : Event Key} (hio : event.Undisturbed) (h : PinnedTo s.files path chain)
    (hstep : step cfg s event = some (s', n)) : PinnedTo s'.files path chain := by
  rcases step_files hstep with ⟨_, hfiles, _⟩ | ⟨io, hio', hfiles, _⟩
  · rw [hfiles]
    exact h
  · obtain ⟨hread, hwrite, hok⟩ := hio io hio'
    rw [hfiles]
    exact h.verify hread hwrite hok

theorem countCert_bounded {cn : Bytes} {key : Key} (h : Bounded s.request)
    (hc : countCert cfg s cn key = (s', n)) : Bounded s'.request := by
  unfold countCert at hc
  dsimp only at hc
  split_ifs at hc with hfull
  · rw [← (Prod.mk.inj hc).1]
    exact h
  · rw [← (Prod.mk.inj hc).1]
    have hle := h.1
    refine ⟨by dsimp only; omega, ?_⟩
    dsimp only
    rw [chainBit_eq]
    split_ifs
    · exact Nat.or_lt_two_pow h.2 (Nat.pow_lt_pow_right (by omega) (by omega))
    · exact h.2

theorem step_bounded {event : Event Key} (h : Bounded s.request)
    (hstep : step cfg s event = some (s', n)) : Bounded s'.request := by
  cases event with
  | sslCtx io =>
    obtain ⟨_, hv⟩ := withMutex_eq_some.mp (show curlSslCtx cfg io s = some (s', n) from hstep)
    rcases verified_cases (s := s) io sslConnectError _ with ⟨_, heq⟩ | ⟨_, heq⟩
    · rw [heq] at hv
      rw [← (Prod.mk.inj hv).1]
      exact ⟨Nat.zero_le _, Nat.two_pow_pos 32⟩
    · rw [heq] at hv
      rw [← (Prod.mk.inj hv).1]
      exact h
  | sslVerify preverifyOk hasRequest cert =>
    rcases curlSslVerify_cases hstep with ⟨rfl, _⟩ | ⟨_, _, _, _, _, rfl⟩ | ⟨_, _, rfl⟩ |
      ⟨_, _, cn, key, _, hc⟩
    · exact h
    · exact h
    · exact h
    · exact countCert_bounded h hc
  | body io buffer size nitems =>
    have hc : curlCallback cfg io buffer size nitems s = some (s', n) := hstep
    exact (mutex_sameCerts (fun s => by dsimp only; split_ifs <;> exact ⟨rfl, rfl, rfl, rfl⟩)
      hc).bounded h
  | header io buffer size nitems =>
    have hc : curlHeaderCallback cfg io buffer size nitems s = some (s', n) := hstep
    exact (mutex_sameCerts (fun s => by dsimp only; split_ifs <;> exact ⟨rfl, rfl, rfl, rfl⟩)
      hc).bounded h
  | progress io =>
    have hc : curlProgress cfg io s = some (s', n) := hstep
    exact (mutex_sameCerts (fun s => ⟨rfl, rfl, rfl, rfl⟩) hc).bounded h
  | setMaxBody maximum =>
    have hset : curlRequestSetMaxBody maximum s = some (s', n) := hstep
    rw [← (Prod.mk.inj (withMutex_eq_some.mp hset).2).1]
    exact h
  | free =>
    have hset : curlRequestFree s = some (s', n) := hstep
    rw [← (Prod.mk.inj (withMutex_eq_some.mp hset).2).1]
    exact h

variable {shared : Shared Key} {w w' : World}

theorem World.step_eq_some {i : ℕ} {event : Event Key}
    (h : w.step shared i event = some (w', n)) :
    ∃ s', CurlTransfer.step (shared.setting (w.request i).trust) ⟨w.request i, w.files⟩ event =
        some (s', n) ∧ w' = ⟨Function.update w.request i s'.request, s'.files⟩ := by
  obtain ⟨⟨s', m⟩, hstep, heq⟩ := Option.map_eq_some_iff.mp h
  obtain ⟨rfl, rfl⟩ := Prod.mk.inj heq
  exact ⟨s', hstep, rfl⟩

/-- What a call for one request keeps of the files and of every request, whole runs keep. -/
theorem World.run_invariant (I : World → Prop) (P : Event Key → Prop)
    (hstep : ∀ w w' i event n, I w → P event → World.step shared w i event = some (w', n) → I w')
    {events : List (ℕ × Event Key)} (hP : ∀ e ∈ events, P e.2) (hI : I w)
    (hrun : w.run shared events = some w') : I w' := by
  induction events generalizing w with
  | nil =>
    rw [← Option.some.inj hrun]
    exact hI
  | cons e events ih =>
    obtain ⟨i, event⟩ := e
    rw [World.run] at hrun
    obtain ⟨⟨mid, n⟩, hone, hrest⟩ := Option.bind_eq_some_iff.mp hrun
    exact ih (fun e he => hP e (List.mem_cons_of_mem _ he))
      (hstep w mid i event n hI (hP _ List.mem_cons_self) hone) hrest

/-- However the calls for the requests are interleaved, the chain with which one request begins
another handshake or takes bytes of a response is the only one with which any request does so
afterwards, for the same common name and as long as the files can be read and written. -/
theorem chain_pinned_by_first_use (shared : Shared Key) (trust : ℕ → Trust) (files : Files)
    (before between : List (ℕ × Event Key)) (w₁ w₂ w₃ w₄ : World) (i j : ℕ)
    (event event' : Event Key) (n n' : ℕ) (path : List Char)
    (hbefore : World.run shared ⟨fun k => curlRequestCreate (trust k), files⟩ before = some w₁)
    (hfirst : w₁.step shared i event = some (w₂, n)) (hpassed : event.Passed n)
    (hbetween : w₂.run shared between = some w₃)
    (hlater : w₃.step shared j event' = some (w₄, n')) (hpassed' : event'.Passed n')
    (hshown : (w₁.request i).certId ≠ 0) (hshown' : (w₃.request j).certId ≠ 0)
    (hpath : shared.pathOf (w₁.request i) = some path)
    (hpath' : shared.pathOf (w₃.request j) = some path)
    (hio : event.Undisturbed) (hio' : event'.Undisturbed)
    (hios : ∀ e ∈ between, e.2.Undisturbed) :
    (w₃.request j).certChain = (w₁.request i).certChain := by
  have hbounded : ∀ k, Bounded (w₁.request k) := by
    refine World.run_invariant (fun w => ∀ k, Bounded (w.request k)) (fun _ => True) ?_
      (fun _ _ => trivial) (fun _ => ⟨Nat.zero_le _, Nat.two_pow_pos 32⟩) hbefore
    intro w w' i event n hI _ hstep k
    obtain ⟨s', hone, rfl⟩ := World.step_eq_some hstep
    dsimp only
    rw [Function.update_apply]
    split_ifs
    · exact step_bounded (hI i) hone
    · exact hI k
  -- the first use writes the chain to the file
  obtain ⟨s', hone, rfl⟩ := World.step_eq_some hfirst
  have hpinned : PinnedTo s'.files path (w₁.request i).certChain := by
    rcases step_files hone with ⟨_, _, hno⟩ | ⟨io, hevent, hfiles, hverified⟩
    · exact absurd hpassed hno
    · obtain ⟨_, hwrite, hok⟩ := hio io hevent
      have hverified := hverified hpassed
      rw [hfiles]
      rcases @curlVerifyCertChain_cases Key (shared.setting (w₁.request i).trust) io
        (w₁.request i) w₁.files with ⟨hid, _⟩ | ⟨_, hfalse⟩ | ⟨_, files', path', heq, hacc⟩
      · exact absurd hid hshown
      · rw [hfalse] at hverified
        cases hverified
      · have hsame : path' = path := Option.some.inj (hacc.path_eq.symm.trans hpath)
        rw [heq, ← hsame]
        exact hacc.pins hwrite hok (hbounded i).2
  -- and the calls in between leave it there
  have hkept : PinnedTo w₃.files path (w₁.request i).certChain := by
    refine World.run_invariant (fun w => PinnedTo w.files path (w₁.request i).certChain)
      Event.Undisturbed ?_ hios hpinned hbetween
    intro w w' k event n hI hio hstep
    obtain ⟨s'', hone', rfl⟩ := World.step_eq_some hstep
    exact step_pinned hio hI hone'
  obtain ⟨s'', hone', rfl⟩ := World.step_eq_some hlater
  rcases step_files hone' with ⟨_, _, hno⟩ | ⟨io, hevent, _, hverified⟩
  · exact absurd hpassed' hno
  · obtain ⟨hread, _, _⟩ := hio' io hevent
    have hverified := hverified hpassed'
    rcases @curlVerifyCertChain_cases Key (shared.setting (w₃.request j).trust) io
      (w₃.request j) w₃.files with ⟨hid, _⟩ | ⟨_, hfalse⟩ | ⟨_, files', path', heq, hacc⟩
    · exact absurd hid hshown'
    · rw [hfalse] at hverified
      cases hverified
    · have hsame : path' = path := Option.some.inj (hacc.path_eq.symm.trans hpath')
      rw [hsame] at hacc
      exact hkept.chain_eq hread hacc

/-- One key for the application, and a digest of the right size. -/
def oneShared : Shared ℕ :=
  ⟨fun | .application => [7] | _ => [], fun _ => some (List.replicate 32 0), []⟩

theorem goodIo_undisturbed (io? : Option Io) (h : io? = some goodIo) :
    ∀ io, io? = some io → io.opensRead = true ∧ io.opensWrite = true ∧ io.writes = true := by
  rintro io hio
  rw [← Option.some.inj (h.symm.trans hio)]
  exact ⟨rfl, rfl, rfl⟩

theorem chain_pinned_by_first_use_two :
    ∃ w₁ w₃ : World, (w₁.request 0).certChain = 2 ∧
      (w₃.request 1).certChain = (w₁.request 0).certChain :=
  ⟨_, _, rfl, chain_pinned_by_first_use oneShared (fun _ => .application) (fun _ => none)
    [(0, .sslVerify true true (some ⟨some [65], some 8⟩)),
      (0, .sslVerify true true (some ⟨some [65], some 7⟩))]
    [(1, .sslVerify true true (some ⟨some [65], some 9⟩)),
      (1, .sslVerify true true (some ⟨some [65], some 7⟩))] _ _ _ _ 0 1
    (.body goodIo [1] 1 1) (.sslCtx goodIo) 1 0 _ rfl rfl Nat.one_ne_zero rfl rfl rfl
    (by decide) (by decide) rfl rfl (goodIo_undisturbed _ rfl) (goodIo_undisturbed _ rfl)
    (by simp [Event.Undisturbed, Event.io?])⟩

end Chains

end LibAtrinik.CurlTransfer

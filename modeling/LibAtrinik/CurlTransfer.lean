import LibAtrinik.BigEndian
import LibAtrinik.Password

/-! The callbacks of a request: what they receive, which certificates they let pass, and the mutex
that each of them takes. libcurl and OpenSSL call them in an order of their own. -/
namespace LibAtrinik.CurlTransfer

abbrev Bytes := List UInt8

section Code

def sizeMax : ℕ := 2^64-1

/-- `HUGE_BUF`. -/
def hugeBuf : ℕ := 4096

/-- `CURLE_SSL_CONNECT_ERROR`. -/
def sslConnectError : ℕ := 35

/-- `curl_pkey_trust_t`. -/
inductive Trust where
  | system
  | ultimate
  | application
deriving DecidableEq, Repr

/-- A certificate, as far as OpenSSL can get at its common name and its key. -/
structure Cert (Key : Type) where
  commonName : Option Bytes
  key : Option Key

/-- `curl_request_t`. A buffer is what was last allocated for it. -/
structure Request where
  trust : Trust
  maxBodySize : ℕ := sizeMax
  body : Option Bytes := none
  bodySize : ℕ := 0
  header : Option Bytes := none
  headerSize : ℕ := 0
  certId : ℕ := 0
  certChain : ℕ := 0
  certCn : Option Bytes := none
  finished : Bool := false
  untrusted : Bool := false
  /-- Whether `mutex` is locked. -/
  locked : Bool := false

/-- The files of the data directory, by their paths. -/
abbrev Files := List Char → Option Bytes

/-- Which operations on a file succeed. -/
structure Io where
  opensRead : Bool
  opensWrite : Bool
  writes : Bool

/-- The keys in the trust store of the request, SHA-256, and the data directory. -/
structure Setting (Key : Type) where
  trusted : List Key
  sha256 : Bytes → Option Bytes
  dataDir : List Char

/-- A `uint32_t` in a file. -/
def chainBytes (chain : ℕ) : Bytes := (BigEndian.bytes 4 chain).reverse

def chainOf (content : Bytes) : ℕ := BigEndian.value (content.take 4).reverse

variable {Key : Type}

/-- The file of a common name, if the key for it can be computed. -/
def chainPath (cfg : Setting Key) (certCn : Bytes) : Option (List Char) :=
  match cfg.sha256 certCn with
  | none => none
  | some digest =>
    if digest.length ≠ 32 then none
    else
      let digestAscii := Password.stringTohex digest 65 false
      if digestAscii.length ≠ 64 then none
      else some ((cfg.dataDir ++ "/certchains/".toList ++ digestAscii).take (hugeBuf-1))

/-- The end of `curl_verify_cert_chain`, which rewrites the file. -/
def saveChain (files : Files) (io : Io) (path : List Char) (chain : ℕ) : Files :=
  if io.opensWrite then
    Function.update files path (some (if io.writes then chainBytes chain else []))
  else files

/-- `curl_verify_cert_chain` from where the file of the common name is known. -/
def checkChain (files : Files) (io : Io) (path : List Char) (chain : ℕ) : Bool × Files :=
  match if io.opensRead then files path else none with
  | some content =>
    -- a file with less than four bytes is reported as corrupt and then replaced
    if content.length ≥ 4 ∧ chainOf content ≠ chain then (false, files)
    else (true, saveChain files io path chain)
  | none => (true, saveChain files io path chain)

/-- `curl_verify_cert_chain`. -/
def curlVerifyCertChain (cfg : Setting Key) (io : Io) (r : Request) (files : Files) :
    Bool × Files :=
  if r.certId = 0 then (true, files)
  else
    match r.certCn with
    | none => (false, files)
    | some certCn =>
      if r.certChain = 0 then (false, files)
      else
        match chainPath cfg certCn with
        | none => (false, files)
        | some path => checkChain files io path r.certChain

/-- A request, and the files that all requests share. -/
structure State where
  request : Request
  files : Files

/-- The test by which a callback refuses data that is too much. -/
def overflows (size nitems used : ℕ) : Bool :=
  let realsize := size*nitems%2^64
  (size ≠ 0 && realsize/size ≠ nitems) || used = sizeMax || realsize > sizeMax-used-1

/-- `xrealloc`, `memcpy` and the NUL behind the data. -/
def grow (buf : Option Bytes) (used : ℕ) (data : Bytes) : Option Bytes :=
  some ((buf.getD []).take used ++ data ++ [0])

/-- What a callback does between locking and unlocking the mutex. `none`: it waits for ever. -/
def withMutex (s : State) (inside : State → State × ℕ) : Option (State × ℕ) :=
  if s.request.locked then none else some (inside s)

/-- The callbacks verify the certificates before anything else. -/
def verified (cfg : Setting Key) (io : Io) (s : State) (refused : ℕ)
    (inside : State → State × ℕ) : State × ℕ :=
  let v := curlVerifyCertChain cfg io s.request s.files
  let s := { s with files := v.2 }
  if v.1 then inside s else (s, refused)

/-- `curl_callback`. -/
def curlCallback (cfg : Setting Key) (io : Io) (buffer : Bytes) (size nitems : ℕ) (s : State) :
    Option (State × ℕ) :=
  withMutex s fun s => verified cfg io s 0 fun s =>
    let r := s.request
    let realsize := size*nitems%2^64
    if overflows size nitems r.bodySize || r.bodySize > r.maxBodySize ||
        realsize > r.maxBodySize-r.bodySize then (s, 0)
    else
      ({ s with request := { r with
          body := grow r.body r.bodySize (buffer.take realsize)
          bodySize := r.bodySize+realsize } }, realsize)

/-- `curl_header_callback`. -/
def curlHeaderCallback (cfg : Setting Key) (io : Io) (buffer : Bytes) (size nitems : ℕ)
    (s : State) : Option (State × ℕ) :=
  withMutex s fun s => verified cfg io s 0 fun s =>
    let r := s.request
    let realsize := size*nitems%2^64
    if overflows size nitems r.headerSize then (s, 0)
    else
      ({ s with request := { r with
          header := grow r.header r.headerSize (buffer.take realsize)
          headerSize := r.headerSize+realsize } }, realsize)

/-- `curl_progress`. It returns 1 for going on, which libcurl takes for the end of the transfer. -/
def curlProgress (cfg : Setting Key) (io : Io) (s : State) : Option (State × ℕ) :=
  withMutex s fun s => verified cfg io s 0 fun s => (s, if s.request.finished then 0 else 1)

/-- `curl_ssl_ctx`, which is called before a handshake. -/
def curlSslCtx (cfg : Setting Key) (io : Io) (s : State) : Option (State × ℕ) :=
  withMutex s fun s => verified cfg io s sslConnectError fun s =>
    ({ s with request := { s.request with certId := 0, certChain := 0 } }, 0)

/-- The loop over the trust store, which sets the bit of the certificate. -/
def chainBit [DecidableEq Key] (trusted : List Key) (key : Key) (certId chain : ℕ) : ℕ :=
  trusted.foldl (fun chain pin => if key = pin then chain ||| 2^certId else chain) chain

/-- `curl_ssl_verify` from the second time that it locks the mutex. -/
def countCert [DecidableEq Key] (cfg : Setting Key) (s : State) (cn : Bytes) (key : Key) :
    State × ℕ :=
  let r := { s.request with certCn := some cn }
  if r.certId = 32 then ({ s with request := r }, 0)
  else
    ({ s with request := { r with
        certChain := chainBit cfg.trusted key r.certId r.certChain
        certId := r.certId+1 } }, 1)

/-- `curl_ssl_verify`. The assertion about ultimate trust returns without unlocking the mutex where
`SOFT_ASSERT` does not abort, as in builds with `NDEBUG`. -/
def curlSslVerify [DecidableEq Key] (cfg : Setting Key) (preverifyOk hasRequest : Bool)
    (cert : Option (Cert Key)) (s : State) : Option (State × ℕ) :=
  if !preverifyOk then some (s, 0)
  else if !hasRequest then some (s, 0)
  else if s.request.locked then none
  else if s.request.trust = .system then some (s, 1)
  else if cfg.trusted = [] then
    if s.request.trust = .ultimate then
      some ({ s with request := { s.request with locked := true } }, 0)
    else some ({ s with request := { s.request with untrusted := true } }, 1)
  else
    match cert with
    | some ⟨some cn, some key⟩ => withMutex s fun s => countCert cfg s cn key
    | _ => some (s, 0)

/-- `curl_request_set_max_body`. -/
def curlRequestSetMaxBody (maximum : ℕ) (s : State) : Option (State × ℕ) :=
  withMutex s fun s => ({ s with request := { s.request with maxBodySize := maximum } }, 0)

/-- `curl_request_free`, as far as a request that is in progress can notice. -/
def curlRequestFree (s : State) : Option (State × ℕ) :=
  withMutex s fun s => ({ s with request := { s.request with finished := true } }, 0)

/-- A call of one of them. -/
inductive Event (Key : Type) where
  | sslCtx (io : Io)
  | sslVerify (preverifyOk hasRequest : Bool) (cert : Option (Cert Key))
  | body (io : Io) (buffer : Bytes) (size nitems : ℕ)
  | header (io : Io) (buffer : Bytes) (size nitems : ℕ)
  | progress (io : Io)
  | setMaxBody (maximum : ℕ)
  | free

def step [DecidableEq Key] (cfg : Setting Key) (s : State) : Event Key → Option (State × ℕ)
  | .sslCtx io => curlSslCtx cfg io s
  | .sslVerify preverifyOk hasRequest cert => curlSslVerify cfg preverifyOk hasRequest cert s
  | .body io buffer size nitems => curlCallback cfg io buffer size nitems s
  | .header io buffer size nitems => curlHeaderCallback cfg io buffer size nitems s
  | .progress io => curlProgress cfg io s
  | .setMaxBody maximum => curlRequestSetMaxBody maximum s
  | .free => curlRequestFree s

/-- The calls in turn, with what each of them returns. -/
def run [DecidableEq Key] (cfg : Setting Key) : State → List (Event Key) → Option (State × List ℕ)
  | s, [] => some (s, [])
  | s, event :: events => do
    let (s, result) ← step cfg s event
    let (s, results) ← run cfg s events
    return (s, result :: results)

/-- `curl_request_create`. -/
def curlRequestCreate (trust : Trust) : Request := { trust := trust }

end Code

section Buffers

variable {Key : Type} {cfg : Setting Key} {s s' : State} {n : ℕ}

/-- The test refuses exactly what does not fit into memory with a NUL behind it. -/
theorem overflows_eq_false (size nitems used : ℕ) :
    overflows size nitems used = false ↔ used ≠ sizeMax ∧ size*nitems ≤ sizeMax-used-1 := by
  unfold overflows
  simp only [Bool.or_eq_false_iff, Bool.and_eq_false_iff, decide_eq_false_iff_not, not_not, not_lt]
  constructor
  · rintro ⟨⟨hdiv, hused⟩, hle⟩
    refine ⟨hused, ?_⟩
    suffices hmod : size*nitems%2^64 = size*nitems by rwa [hmod] at hle
    rcases hdiv with rfl | hdiv
    · rw [Nat.zero_mul, Nat.zero_mod]
    · apply le_antisymm (Nat.mod_le _ _)
      calc size*nitems = size*(size*nitems%2^64/size) := by rw [hdiv]
        _ ≤ size*nitems%2^64 := Nat.mul_div_le _ _
  · rintro ⟨hused, hle⟩
    have hmod : size*nitems%2^64 = size*nitems := by
      apply Nat.mod_eq_of_lt
      unfold sizeMax at hle
      omega
    rw [hmod]
    refine ⟨⟨?_, hused⟩, hle⟩
    by_cases h0 : size = 0
    · exact Or.inl h0
    · exact Or.inr (Nat.mul_div_cancel_left nitems (Nat.pos_of_ne_zero h0))

/-- A buffer with this data and a NUL behind it. No buffer is as good as one without data. -/
structure Filled (buf : Option Bytes) (used : ℕ) (data : Bytes) : Prop where
  content : buf.getD [0] = data ++ [0]
  used_eq : used = data.length

theorem Filled.none : Filled none 0 [] := ⟨rfl, rfl⟩

theorem Filled.grow {buf : Option Bytes} {used : ℕ} {data : Bytes} (h : Filled buf used data)
    (piece : Bytes) :
    Filled (CurlTransfer.grow buf used piece) (used+piece.length) (data ++ piece) := by
  have htake : (buf.getD []).take used = data := by
    cases buf with
    | none =>
      have hnil : data = [] := by
        have hc := h.content
        cases data with
        | nil => rfl
        | cons b data => simp at hc
      rw [hnil, Option.getD_none, List.take_nil]
    | some buf =>
      have hc : buf = data ++ [0] := h.content
      rw [Option.getD_some, hc, h.used_eq, List.take_left]
  refine ⟨?_, ?_⟩
  · rw [CurlTransfer.grow, htake]
    rfl
  · rw [h.used_eq, List.length_append]

/-- libcurl passes a buffer of `nitems` times `size` bytes. -/
def Event.WellFormed : Event Key → Prop
  | .body _ buffer size nitems => buffer.length = size*nitems
  | .header _ buffer size nitems => buffer.length = size*nitems
  | _ => True

/-- The part of the body that a call has accepted, as libcurl sees it. -/
def bodyPiece : Event Key × ℕ → Bytes
  | (.body _ buffer size nitems, n) => if n = size*nitems then buffer else []
  | _ => []

def headerPiece : Event Key × ℕ → Bytes
  | (.header _ buffer size nitems, n) => if n = size*nitems then buffer else []
  | _ => []

/-- A chain that is accepted is the one in the file, where a whole one can be read, and the file
is written anew. -/
structure Accepts (cfg : Setting Key) (io : Io) (r : Request) (files files' : Files)
    (path : List Char) : Prop where
  chain_ne_zero : r.certChain ≠ 0
  path_eq : r.certCn.bind (chainPath cfg) = some path
  known : ∀ content, io.opensRead = true → files path = some content → 4 ≤ content.length →
    chainOf content = r.certChain
  saved : files' = saveChain files io path r.certChain

/-- How the verification of the certificates can end. -/
theorem curlVerifyCertChain_cases (io : Io) (r : Request) (files : Files) :
    (r.certId = 0 ∧ curlVerifyCertChain cfg io r files = (true, files)) ∨
    (r.certId ≠ 0 ∧ curlVerifyCertChain cfg io r files = (false, files)) ∨
    (r.certId ≠ 0 ∧ ∃ files' path, curlVerifyCertChain cfg io r files = (true, files') ∧
      Accepts cfg io r files files' path) := by
  unfold curlVerifyCertChain
  by_cases hid : r.certId = 0
  · exact Or.inl ⟨hid, if_pos hid⟩
  rw [if_neg hid]
  refine Or.inr ?_
  cases hcn : r.certCn with
  | none => exact Or.inl ⟨hid, rfl⟩
  | some cn =>
    dsimp only
    by_cases hzero : r.certChain = 0
    · exact Or.inl ⟨hid, if_pos hzero⟩
    rw [if_neg hzero]
    cases hpath : chainPath cfg cn with
    | none => exact Or.inl ⟨hid, rfl⟩
    | some path =>
      have haccepts (hknown : ∀ content, io.opensRead = true → files path = some content →
          4 ≤ content.length → chainOf content = r.certChain) :
          Accepts cfg io r files (saveChain files io path r.certChain) path :=
        ⟨hzero, by rw [hcn, Option.bind_some, hpath], hknown, rfl⟩
      dsimp only
      unfold checkChain
      cases hread : (if io.opensRead then files path else none) with
      | none =>
        refine Or.inr ⟨hid, _, path, rfl, haccepts fun content hopen hfile => ?_⟩
        rw [if_pos hopen, hfile] at hread
        cases hread
      | some content =>
        dsimp only
        by_cases hdiffers : content.length ≥ 4 ∧ chainOf content ≠ r.certChain
        · exact Or.inl ⟨hid, if_pos hdiffers⟩
        rw [if_neg hdiffers]
        refine Or.inr ⟨hid, _, path, rfl, haccepts fun content' hopen hfile hlen => ?_⟩
        rw [if_pos hopen, hfile] at hread
        obtain rfl := Option.some.inj hread
        by_contra hne
        exact hdiffers ⟨hlen, hne⟩

/-- Whether the verification of the certificates lets a callback go on, and what is then left. -/
theorem verified_cases (io : Io) (refused : ℕ) (inside : State → State × ℕ) :
    (curlVerifyCertChain cfg io s.request s.files).1 = true ∧
        verified cfg io s refused inside =
          inside ⟨s.request, (curlVerifyCertChain cfg io s.request s.files).2⟩ ∨
      (curlVerifyCertChain cfg io s.request s.files).1 = false ∧
        verified cfg io s refused inside =
          (⟨s.request, (curlVerifyCertChain cfg io s.request s.files).2⟩, refused) := by
  unfold verified
  cases h : (curlVerifyCertChain cfg io s.request s.files).1 with
  | true => exact Or.inl ⟨rfl, by rw [if_pos h]⟩
  | false => exact Or.inr ⟨rfl, by rw [if_neg (by rw [h]; exact Bool.false_ne_true)]⟩

theorem withMutex_eq_some {inside : State → State × ℕ} {r : State × ℕ} :
    withMutex s inside = some r ↔ s.request.locked = false ∧ inside s = r := by
  unfold withMutex
  cases s.request.locked <;> simp

/-- A piece of the body is stored whole, or it is refused and nothing is stored. -/
theorem curlCallback_cases {io : Io} {buffer : Bytes} {size nitems : ℕ}
    (hwf : buffer.length = size*nitems)
    (h : curlCallback cfg io buffer size nitems s = some (s', n)) :
    (n = 0 ∧ s'.request = s.request) ∨
      (n = size*nitems ∧ s.request.bodySize+n ≤ s.request.maxBodySize ∧
        (curlVerifyCertChain cfg io s.request s.files).1 = true ∧
        s'.request = { s.request with
          body := grow s.request.body s.request.bodySize buffer
          bodySize := s.request.bodySize+buffer.length }) := by
  obtain ⟨_, h⟩ := withMutex_eq_some.mp h
  rcases verified_cases (s := s) io 0 _ with ⟨hok, heq⟩ | ⟨_, heq⟩
  · rw [heq] at h
    dsimp only at h
    split_ifs at h with hover
    · left
      rw [← (Prod.mk.inj h).1, ← (Prod.mk.inj h).2]
      exact ⟨rfl, rfl⟩
    · right
      simp only [Bool.or_eq_true, decide_eq_true_eq, not_or, Bool.not_eq_true, not_lt] at hover
      obtain ⟨⟨hfit, hused⟩, hle⟩ := hover
      obtain ⟨_, hroom⟩ := (overflows_eq_false size nitems _).mp hfit
      have hmod : size*nitems%2^64 = size*nitems := by
        apply Nat.mod_eq_of_lt
        unfold sizeMax at hroom
        omega
      rw [hmod, ← hwf, List.take_length] at h
      rw [hmod] at hle
      rw [← (Prod.mk.inj h).1, ← (Prod.mk.inj h).2, hwf]
      refine ⟨rfl, by omega, hok, ?_⟩
      rfl
  · left
    rw [heq] at h
    rw [← (Prod.mk.inj h).1, ← (Prod.mk.inj h).2]
    exact ⟨rfl, rfl⟩

theorem curlHeaderCallback_cases {io : Io} {buffer : Bytes} {size nitems : ℕ}
    (hwf : buffer.length = size*nitems)
    (h : curlHeaderCallback cfg io buffer size nitems s = some (s', n)) :
    (n = 0 ∧ s'.request = s.request) ∨
      (n = size*nitems ∧ (curlVerifyCertChain cfg io s.request s.files).1 = true ∧
        s'.request = { s.request with
          header := grow s.request.header s.request.headerSize buffer
          headerSize := s.request.headerSize+buffer.length }) := by
  obtain ⟨_, h⟩ := withMutex_eq_some.mp h
  rcases verified_cases (s := s) io 0 _ with ⟨hok, heq⟩ | ⟨_, heq⟩
  · rw [heq] at h
    dsimp only at h
    split_ifs at h with hover
    · left
      rw [← (Prod.mk.inj h).1, ← (Prod.mk.inj h).2]
      exact ⟨rfl, rfl⟩
    · right
      obtain ⟨_, hroom⟩ := (overflows_eq_false size nitems _).mp (by simpa using hover)
      have hmod : size*nitems%2^64 = size*nitems := by
        apply Nat.mod_eq_of_lt
        unfold sizeMax at hroom
        omega
      rw [hmod, ← hwf, List.take_length] at h
      rw [← (Prod.mk.inj h).1, ← (Prod.mk.inj h).2, hwf]
      exact ⟨rfl, hok, rfl⟩
  · left
    rw [heq] at h
    rw [← (Prod.mk.inj h).1, ← (Prod.mk.inj h).2]
    exact ⟨rfl, rfl⟩

/-- What the calls that receive no data leave alone. -/
structure SameData (r r' : Request) : Prop where
  trust : r'.trust = r.trust
  body : r'.body = r.body
  bodySize : r'.bodySize = r.bodySize
  header : r'.header = r.header
  headerSize : r'.headerSize = r.headerSize
  maxBodySize : r'.maxBodySize = r.maxBodySize

theorem SameData.refl (r : Request) : SameData r r := ⟨rfl, rfl, rfl, rfl, rfl, rfl⟩

theorem verified_sameData {io : Io} {refused : ℕ} {inside : State → State × ℕ}
    (hinside : ∀ s, SameData s.request (inside s).1.request) :
    SameData s.request (verified cfg io s refused inside).1.request := by
  rcases verified_cases (s := s) io refused inside with ⟨_, heq⟩ | ⟨_, heq⟩
  · rw [heq]
    have hsame := hinside ⟨s.request, (curlVerifyCertChain cfg io s.request s.files).2⟩
    exact hsame
  · rw [heq]
    exact .refl _

theorem curlSslCtx_sameData {io : Io} (h : curlSslCtx cfg io s = some (s', n)) :
    SameData s.request s'.request := by
  have hv := (withMutex_eq_some.mp h).2
  have hsame := @verified_sameData Key cfg s io sslConnectError
    (fun s => ({ s with request := { s.request with certId := 0, certChain := 0 } }, 0))
    fun s => ⟨rfl, rfl, rfl, rfl, rfl, rfl⟩
  rwa [hv] at hsame

theorem curlProgress_sameData {io : Io} (h : curlProgress cfg io s = some (s', n)) :
    SameData s.request s'.request := by
  have hv := (withMutex_eq_some.mp h).2
  have hsame := @verified_sameData Key cfg s io 0
    (fun s => (s, if s.request.finished then 0 else 1)) fun s => .refl _
  rwa [hv] at hsame

variable [DecidableEq Key]

/-- What a call for a certificate does, in all its branches. -/
theorem curlSslVerify_cases {preverifyOk hasRequest : Bool} {cert : Option (Cert Key)}
    (h : curlSslVerify cfg preverifyOk hasRequest cert s = some (s', n)) :
    (s' = s ∧ (n = 0 ∨ s.request.trust = .system)) ∨
    (cfg.trusted = [] ∧ s.request.trust = .ultimate ∧ n = 0 ∧ preverifyOk = true ∧
      hasRequest = true ∧ s' = { s with request := { s.request with locked := true } }) ∨
    (cfg.trusted = [] ∧ n = 1 ∧
      s' = { s with request := { s.request with untrusted := true } }) ∨
    (cfg.trusted ≠ [] ∧ s.request.trust ≠ .system ∧
      ∃ cn key, cert = some ⟨some cn, some key⟩ ∧ countCert cfg s cn key = (s', n)) := by
  unfold curlSslVerify at h
  split_ifs at h with hpre hhas hlock hsys hnil hult
  · left
    rw [← (Prod.mk.inj (Option.some.inj h)).1, ← (Prod.mk.inj (Option.some.inj h)).2]
    exact ⟨rfl, Or.inl rfl⟩
  · left
    rw [← (Prod.mk.inj (Option.some.inj h)).1, ← (Prod.mk.inj (Option.some.inj h)).2]
    exact ⟨rfl, Or.inl rfl⟩
  · left
    rw [← (Prod.mk.inj (Option.some.inj h)).1]
    exact ⟨rfl, Or.inr hsys⟩
  · right; left
    simp only [Bool.not_eq_true', Bool.not_eq_false] at hpre hhas
    rw [← (Prod.mk.inj (Option.some.inj h)).1, ← (Prod.mk.inj (Option.some.inj h)).2]
    exact ⟨hnil, hult, rfl, hpre, hhas, rfl⟩
  · right; right; left
    rw [← (Prod.mk.inj (Option.some.inj h)).1, ← (Prod.mk.inj (Option.some.inj h)).2]
    exact ⟨hnil, rfl, rfl⟩
  · match cert, h with
    | some ⟨some cn, some key⟩, h =>
      right; right; right
      exact ⟨hnil, hsys, cn, key, rfl, (withMutex_eq_some.mp h).2⟩
    | none, h | some ⟨none, _⟩, h | some ⟨some _, none⟩, h =>
      left
      rw [← (Prod.mk.inj (Option.some.inj h)).1, ← (Prod.mk.inj (Option.some.inj h)).2]
      exact ⟨rfl, Or.inl rfl⟩

theorem countCert_sameData {cn : Bytes} {key : Key} (h : countCert cfg s cn key = (s', n)) :
    SameData s.request s'.request := by
  unfold countCert at h
  dsimp only at h
  split_ifs at h
  all_goals
    rw [← (Prod.mk.inj h).1]
    exact ⟨rfl, rfl, rfl, rfl, rfl, rfl⟩

theorem curlSslVerify_sameData {preverifyOk hasRequest : Bool} {cert : Option (Cert Key)}
    (h : curlSslVerify cfg preverifyOk hasRequest cert s = some (s', n)) :
    SameData s.request s'.request := by
  rcases curlSslVerify_cases h with ⟨rfl, _⟩ | ⟨_, _, _, _, _, rfl⟩ | ⟨_, _, rfl⟩ |
    ⟨_, _, cn, key, _, hc⟩
  · exact .refl _
  · exact ⟨rfl, rfl, rfl, rfl, rfl, rfl⟩
  · exact ⟨rfl, rfl, rfl, rfl, rfl, rfl⟩
  · exact countCert_sameData hc

/-- The buffers hold what has been accepted, and the body keeps to a bound of its limits. -/
structure Retains (bound : ℕ) (s : State) (body header : Bytes) : Prop where
  filled : Filled s.request.body s.request.bodySize body
  headed : Filled s.request.header s.request.headerSize header
  limit : s.request.maxBodySize ≤ bound
  fits : body.length ≤ bound

theorem Retains.same {bound : ℕ} {body header : Bytes} (h : Retains bound s body header)
    (hd : SameData s.request s'.request) : Retains bound s' body header := by
  refine ⟨?_, ?_, ?_, h.fits⟩
  · rw [hd.body, hd.bodySize]
    exact h.filled
  · rw [hd.header, hd.headerSize]
    exact h.headed
  · rw [hd.maxBodySize]
    exact h.limit

/-- A limit that is set later is no higher than the bound. -/
def Event.Within (bound : ℕ) : Event Key → Prop
  | .setMaxBody maximum => maximum ≤ bound
  | _ => True

/-- What a call returns decides what libcurl takes for accepted, and this is what is stored. -/
theorem step_retains {bound : ℕ} {body header : Bytes} {event : Event Key}
    (hwf : event.WellFormed) (hwithin : event.Within bound) (h : Retains bound s body header)
    (hstep : step cfg s event = some (s', n)) :
    Retains bound s' (body ++ bodyPiece (event, n)) (header ++ headerPiece (event, n)) := by
  cases event with
  | body io buffer size nitems =>
    have hwf : buffer.length = size*nitems := hwf
    change Retains bound s' _ (header ++ [])
    rw [List.append_nil]
    rcases curlCallback_cases hwf hstep with ⟨rfl, hsame⟩ | ⟨rfl, hroom, _, hreq⟩
    · have hpiece : bodyPiece ((.body io buffer size nitems : Event Key), 0) = [] := by
        rw [bodyPiece]
        split_ifs with h0
        · exact List.length_eq_zero_iff.mp (hwf.trans h0.symm)
        · rfl
      rw [hpiece, List.append_nil]
      exact h.same (by rw [hsame]; exact .refl _)
    · rw [bodyPiece, if_pos rfl]
      have hused := h.filled.used_eq
      refine ⟨?_, ?_, ?_, ?_⟩
      · rw [hreq]
        exact h.filled.grow buffer
      · rw [hreq]
        exact h.headed
      · rw [hreq]
        exact h.limit
      · rw [List.length_append, ← hused, hwf]
        exact hroom.trans h.limit
  | header io buffer size nitems =>
    have hwf : buffer.length = size*nitems := hwf
    change Retains bound s' (body ++ []) _
    rw [List.append_nil]
    rcases curlHeaderCallback_cases hwf hstep with ⟨rfl, hsame⟩ | ⟨rfl, _, hreq⟩
    · have hpiece : headerPiece ((.header io buffer size nitems : Event Key), 0) = [] := by
        rw [headerPiece]
        split_ifs with h0
        · exact List.length_eq_zero_iff.mp (hwf.trans h0.symm)
        · rfl
      rw [hpiece, List.append_nil]
      exact h.same (by rw [hsame]; exact .refl _)
    · rw [headerPiece, if_pos rfl]
      refine ⟨?_, ?_, ?_, h.fits⟩
      · rw [hreq]
        exact h.filled
      · rw [hreq]
        exact h.headed.grow buffer
      · rw [hreq]
        exact h.limit
  | sslCtx io =>
    change Retains bound s' (body ++ []) (header ++ [])
    rw [List.append_nil, List.append_nil]
    exact h.same (curlSslCtx_sameData hstep)
  | sslVerify preverifyOk hasRequest cert =>
    change Retains bound s' (body ++ []) (header ++ [])
    rw [List.append_nil, List.append_nil]
    exact h.same (curlSslVerify_sameData hstep)
  | progress io =>
    change Retains bound s' (body ++ []) (header ++ [])
    rw [List.append_nil, List.append_nil]
    exact h.same (curlProgress_sameData hstep)
  | setMaxBody maximum =>
    change Retains bound s' (body ++ []) (header ++ [])
    rw [List.append_nil, List.append_nil]
    have hset : curlRequestSetMaxBody maximum s = some (s', n) := hstep
    rw [← (Prod.mk.inj (withMutex_eq_some.mp hset).2).1]
    exact ⟨h.filled, h.headed, hwithin, h.fits⟩
  | free =>
    change Retains bound s' (body ++ []) (header ++ [])
    rw [List.append_nil, List.append_nil]
    have hset : curlRequestFree s = some (s', n) := hstep
    rw [← (Prod.mk.inj (withMutex_eq_some.mp hset).2).1]
    exact ⟨h.filled, h.headed, h.limit, h.fits⟩

theorem run_cons_eq_some {event : Event Key} {events : List (Event Key)} {results : List ℕ}
    (h : run cfg s (event :: events) = some (s', results)) :
    ∃ mid n rest, step cfg s event = some (mid, n) ∧ run cfg mid events = some (s', rest) ∧
      results = n :: rest := by
  rw [run] at h
  obtain ⟨⟨mid, n⟩, hstep, h⟩ := Option.bind_eq_some_iff.mp h
  obtain ⟨⟨last, rest⟩, hrun, h⟩ := Option.bind_eq_some_iff.mp h
  obtain ⟨rfl, rfl⟩ := Prod.mk.inj (Option.some.inj h)
  exact ⟨mid, n, rest, hstep, hrun, rfl⟩

theorem run_retains {bound : ℕ} {body header : Bytes} {events : List (Event Key)}
    {results : List ℕ} (hwf : ∀ e ∈ events, e.WellFormed) (hwithin : ∀ e ∈ events, e.Within bound)
    (h : Retains bound s body header) (hrun : run cfg s events = some (s', results)) :
    Retains bound s' (body ++ ((events.zip results).map bodyPiece).flatten)
      (header ++ ((events.zip results).map headerPiece).flatten) := by
  induction events generalizing s body header results with
  | nil =>
    obtain ⟨rfl, rfl⟩ := Prod.mk.inj (Option.some.inj hrun)
    simpa using h
  | cons event events ih =>
    obtain ⟨mid, n, rest, hstep, hrest, rfl⟩ := run_cons_eq_some hrun
    have hmid := step_retains (hwf event List.mem_cons_self) (hwithin event List.mem_cons_self) h
      hstep
    have hend := ih (fun e he => hwf e (List.mem_cons_of_mem event he))
      (fun e he => hwithin e (List.mem_cons_of_mem event he)) hmid hrest
    simpa only [List.zip_cons_cons, List.map_cons, List.flatten_cons, List.append_assoc] using hend

/-- After any calls in any order, the body and the headers are exactly the pieces for which libcurl
was told that they have been accepted, in order, with a NUL behind them, and the body is no longer
than the highest limit that was set. -/
theorem transfer_retains (cfg : Setting Key) (trust : Trust) (files : Files) (limit : ℕ)
    (events : List (Event Key)) (hwf : ∀ e ∈ events, e.WellFormed)
    (hwithin : ∀ e ∈ events, e.Within limit) (s : State) (results : List ℕ)
    (hrun : run cfg ⟨{ curlRequestCreate trust with maxBodySize := limit }, files⟩ events =
      some (s, results)) :
    let body := ((events.zip results).map bodyPiece).flatten
    let header := ((events.zip results).map headerPiece).flatten
    s.request.body.getD [0] = body ++ [0] ∧ s.request.bodySize = body.length ∧
      body.length ≤ limit ∧
      s.request.header.getD [0] = header ++ [0] ∧ s.request.headerSize = header.length := by
  have hstart : Retains limit ⟨{ curlRequestCreate trust with maxBodySize := limit }, files⟩ [] [] :=
    ⟨.none, .none, le_rfl, Nat.zero_le _⟩
  have hend := run_retains hwf hwithin hstart hrun
  rw [List.nil_append, List.nil_append] at hend
  exact ⟨hend.filled.content, hend.filled.used_eq, hend.fits, hend.headed.content,
    hend.headed.used_eq⟩

/-- Operations on files that all succeed. -/
def goodIo : Io := ⟨true, true, true⟩

/-- A digest of the right size, one trusted key, and no directory. -/
def oneKey : Setting ℕ := ⟨[7], fun _ => some (List.replicate 32 0), []⟩

theorem transfer_retains_two :
    ∃ s, run oneKey ⟨{ curlRequestCreate .application with maxBodySize := 3 }, fun _ => none⟩
        [.body goodIo [1, 2] 1 2, .body goodIo [3, 4] 2 1] = some (s, [2, 0]) ∧
      s.request.body.getD [0] = [1, 2] ++ [0] :=
  ⟨_, rfl, (transfer_retains oneKey .application (fun _ => none) 3
    [.body goodIo [1, 2] 1 2, .body goodIo [3, 4] 2 1] (by simp [Event.WellFormed])
    (by simp [Event.Within]) _ _ rfl).1⟩

end Buffers

end LibAtrinik.CurlTransfer

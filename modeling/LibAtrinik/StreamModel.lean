import LibAtrinik.IntrusiveList
import Mathlib.Logic.Function.Basic

/-! The typed streams of a QUIC connection. A stream starts with a preface of eight bytes that tells
its kind. The side that opens a stream writes the preface before anything else; the other side keeps
the stream in the list of pending streams until its preface has arrived. -/
namespace LibAtrinik.Stream

/-- `socket_stream_kind_t`. -/
inductive SocketStreamKind where
  | unknown | game | asset
deriving DecidableEq, Repr

def SocketStreamKind.toByte : SocketStreamKind → UInt8
  | .unknown => 0
  | .game => 1
  | .asset => 2

/-- `socket_stream_result_t`. -/
inductive SocketStreamResult where
  | ok | wouldBlock | finished | error
deriving DecidableEq, Repr

inductive SocketTransport where
  | tcp | quicListener | quicConnection
deriving DecidableEq, Repr

inductive SocketRole where
  | client | server
deriving DecidableEq, Repr

/-- Ways in which the code goes wrong, and a loop that has not come to its end. -/
inductive Fault where
  | assertion | dangling | fuel
deriving DecidableEq, Repr

def socketStreamMagic : List UInt8 := [0x41, 0x54, 0x52, 0x4e]
def socketStreamProtocolVersion : UInt16 := 1
def socketStreamErrorPreface : ℕ := 1
def socketQuicPendingStreamMax : ℕ := 16
def socketQuicPrefaceTimeoutMs : UInt64 := 5000

/-- The array of `SOCKET_STREAM_PREFACE_SIZE` bytes. -/
abbrev Preface : Type := { bytes : List UInt8 // bytes.length = 8 }

def Preface.zero : Preface := ⟨List.replicate 8 0, rfl⟩

/-- Bytes that fit are stored at a position of the array. -/
def Preface.store (preface : Preface) (pos : ℕ) (bytes : List UInt8) (h : pos+bytes.length ≤ 8) :
    Preface :=
  ⟨preface.val.take pos ++ bytes ++ preface.val.drop (pos+bytes.length), by
    have hlength := preface.property
    simp only [List.length_append, List.length_take, List.length_drop]
    omega⟩

/-- `socket_stream_preface_encode`. -/
def socketStreamPrefaceEncode (kind : SocketStreamKind) : Except Fault Preface :=
  if kind = .game ∨ kind = .asset then
    .ok ⟨socketStreamMagic ++ [kind.toByte, 0, (socketStreamProtocolVersion >>> 8).toUInt8,
      socketStreamProtocolVersion.toUInt8], rfl⟩
  else .error .assertion

/-- `socket_stream_preface_decode`. -/
def socketStreamPrefaceDecode : List UInt8 → Option SocketStreamKind
  | [magic₀, magic₁, magic₂, magic₃, kind, reserved, high, low] =>
    let version : UInt16 := (high.toUInt16 <<< 8) ||| low.toUInt16
    if [magic₀, magic₁, magic₂, magic₃] ≠ socketStreamMagic ∨ reserved ≠ 0 ∨
        version ≠ socketStreamProtocolVersion ∨
        (kind ≠ SocketStreamKind.game.toByte ∧ kind ≠ SocketStreamKind.asset.toByte) then none
    else some (if kind = SocketStreamKind.game.toByte then .game else .asset)
  | _ => none

/-- `struct socket_stream`. The pointer to the connection is to the one connection or to none. -/
structure SocketStream (Ssl : Type) where
  ssl : Ssl
  connection : Bool
  next : Option ℕ
  kind : SocketStreamKind
  preface : Preface
  prefacePos : ℕ
  createdMs : UInt64
  isLocal : Bool

/-- `struct sock_struct`, as far as its streams are concerned. A stream is referred to by the number
of its allocation. -/
structure Socket where
  transport : SocketTransport
  role : SocketRole
  connectionIdFinal : Bool
  gameStream : Option ℕ
  pendingStreams : Option ℕ
  pendingStreamCount : ℕ
deriving DecidableEq, Repr

/-- What an OpenSSL call answers: the result 1, one of the errors that ask for a later attempt, the
end of the direction of the stream, or any other error. -/
inductive SslAnswer (α : Type) where
  | ok (value : α)
  | want
  | finished
  | failed
deriving DecidableEq, Repr

/-- The calls of OpenSSL and the clock, which answer from a state of their own. -/
structure Quic (Ssl σ : Type) where
  now : σ → UInt64 × σ
  doHandshake : σ → SslAnswer Unit × σ
  connectionIdExport : σ → Bool × σ
  handleEvents : σ → Bool × σ
  acceptStream : σ → Option Ssl × σ
  newStream : σ → Option Ssl × σ
  readEx (s : σ) (ssl : Ssl) (size : ℕ) :
    SslAnswer { bytes : List UInt8 // bytes.length ≤ size } × σ
  writeEx (s : σ) (ssl : Ssl) (bytes : List UInt8) :
    SslAnswer { amount : ℕ // amount ≤ bytes.length } × σ
  reset : σ → Ssl → ℕ → σ
  free : σ → Ssl → σ

/-- The connection, its streams in memory, and the state of OpenSSL. -/
structure State (Ssl σ : Type) where
  sc : Socket
  streams : ℕ → Option (SocketStream Ssl)
  allocated : ℕ
  quic : σ

variable {Ssl σ : Type}

def State.load (st : State Ssl σ) (id : ℕ) : Except Fault (SocketStream Ssl) :=
  match st.streams id with
  | some stream => .ok stream
  | none => .error .dangling

def State.setStream (st : State Ssl σ) (id : ℕ) (stream : SocketStream Ssl) : State Ssl σ :=
  { st with streams := Function.update st.streams id (some stream) }

def State.freeStream (st : State Ssl σ) (id : ℕ) : State Ssl σ :=
  { st with streams := Function.update st.streams id none }

/-- `sc->pending_stream_count--`, after its assertion. -/
def State.countDown (st : State Ssl σ) : Except Fault (State Ssl σ) :=
  if st.sc.pendingStreamCount = 0 then .error .assertion
  else .ok { st with sc := { st.sc with pendingStreamCount := st.sc.pendingStreamCount-1 } }

/-- A `socket_stream_t **`: the head of the list of pending streams or the link of a stream. -/
inductive Link where
  | head
  | next (id : ℕ)
deriving DecidableEq, Repr

def State.loadLink (st : State Ssl σ) : Link → Except Fault (Option ℕ)
  | .head => .ok st.sc.pendingStreams
  | .next id => (st.load id).map SocketStream.next

def State.storeLink (st : State Ssl σ) (link : Link) (target : Option ℕ) :
    Except Fault (State Ssl σ) :=
  match link with
  | .head => .ok { st with sc := { st.sc with pendingStreams := target } }
  | .next id => (st.load id).map fun stream => st.setStream id { stream with next := target }

/-- The loop over the links that stops at the first one to a stream that passes the test. -/
def findLink (test : ℕ → SocketStream Ssl → Bool) (st : State Ssl σ) :
    ℕ → Link → Except Fault (Option (Link × ℕ))
  | fuel, link => do
    match ← st.loadLink link with
    | none => return none
    | some id =>
      let stream ← st.load id
      if test id stream then return some (link, id)
      match fuel with
      | 0 => throw .fuel
      | fuel+1 => findLink test st fuel (.next id)

/-- The preface of a stream that is allocated. -/
def initialPreface (kind : SocketStreamKind) (isLocal : Bool) : Except Fault Preface :=
  if isLocal then socketStreamPrefaceEncode kind else .ok Preface.zero

/-- `socket_stream_allocate`. -/
def socketStreamAllocate (env : Quic Ssl σ) (st : State Ssl σ) (ssl : Ssl)
    (kind : SocketStreamKind) (isLocal : Bool) : Except Fault (ℕ × State Ssl σ) := do
  let (createdMs, quic) := env.now st.quic
  let preface ← initialPreface kind isLocal
  let stream : SocketStream Ssl :=
    { ssl, connection := true, next := none, kind, preface, prefacePos := 0, createdMs, isLocal }
  return (st.allocated,
    { st.setStream st.allocated stream with allocated := st.allocated+1, quic })

/-- `socket_stream_preface_valid`. -/
def socketStreamPrefaceValid (stream : SocketStream Ssl) : Bool × SocketStream Ssl :=
  match socketStreamPrefaceDecode stream.preface.val with
  | some kind => (true, { stream with kind })
  | none => (false, stream)

/-- The loop of `socket_stream_preface_read`. -/
def prefaceReadLoop (env : Quic Ssl σ) : ℕ → SocketStream Ssl → σ →
    Except Fault (Bool × SocketStream Ssl × σ)
  | fuel, stream, s =>
    if h : stream.prefacePos < 8 then
      match fuel with
      | 0 => .error .fuel
      | fuel+1 =>
        match env.readEx s stream.ssl (8-stream.prefacePos) with
        | (.ok bytes, s) =>
          let preface := stream.preface.store stream.prefacePos bytes.val
            (by have hbytes := bytes.property; omega)
          let prefacePos := stream.prefacePos+bytes.val.length
          if bytes.val.length = 0 then .ok (false, { stream with preface, prefacePos }, s)
          else prefaceReadLoop env fuel { stream with preface, prefacePos } s
        | (.want, s) => .ok (false, stream, s)
        | (_, s) => .ok (false, { stream with preface := Preface.zero, prefacePos := 8 }, s)
    else
      let (complete, stream) := socketStreamPrefaceValid stream
      .ok (complete, stream, s)

/-- `socket_stream_preface_read`. -/
def socketStreamPrefaceRead (env : Quic Ssl σ) (st : State Ssl σ) (id : ℕ) :
    Except Fault (Bool × State Ssl σ) := do
  let stream ← st.load id
  let (complete, stream, quic) ← prefaceReadLoop env 8 stream st.quic
  return (complete, { st.setStream id stream with quic })

/-- A `sc->game_stream` that points to the stream is cleared. -/
def State.forgetGame (st : State Ssl σ) (id : ℕ) : State Ssl σ :=
  if st.sc.gameStream = some id then { st with sc := { st.sc with gameStream := none } } else st

/-- The loop of `socket_stream_unlink`. -/
def unlinkPending (st : State Ssl σ) (id : ℕ) (stream : SocketStream Ssl) :
    Except Fault (State Ssl σ) := do
  match ← findLink (fun other _ => other = id) st st.allocated .head with
  | some (link, _) =>
    let st ← st.storeLink link stream.next
    st.countDown
  | none => return st

/-- `socket_stream_unlink`. -/
def socketStreamUnlink (st : State Ssl σ) (id : ℕ) : Except Fault (State Ssl σ) := do
  let stream ← st.load id
  if !stream.connection then return st
  let st ← unlinkPending (st.forgetGame id) id stream
  let stream ← st.load id
  return st.setStream id { stream with next := none, connection := false }

/-- `socket_stream_reject`. -/
def socketStreamReject (env : Quic Ssl σ) (st : State Ssl σ) (id : ℕ) (errorCode : ℕ) :
    Except Fault (State Ssl σ) := do
  let stream ← st.load id
  let st ← socketStreamUnlink { st with quic := env.reset st.quic stream.ssl errorCode } id
  return { st.freeStream id with quic := env.free st.quic stream.ssl }

/-- `socket_stream_destroy`. -/
def socketStreamDestroy (env : Quic Ssl σ) (st : State Ssl σ) (id : ℕ) :
    Except Fault (State Ssl σ) := do
  let stream ← st.load id
  let st ← socketStreamUnlink st id
  return { st.freeStream id with quic := env.free st.quic stream.ssl }

/-- One round of the first loop of `socket_stream_poll_incoming`, after `next` has been loaded. -/
def pollStream (env : Quic Ssl σ) (now : UInt64) (st : State Ssl σ) (id : ℕ) :
    Except Fault (State Ssl σ) := do
  let stream ← st.load id
  if stream.kind = .unknown ∧ stream.prefacePos < 8 then
    let (complete, st) ← socketStreamPrefaceRead env st id
    let stream ← st.load id
    if (stream.prefacePos = 8 ∧
          (complete = false ∨ (stream.kind = .game ∧ st.sc.gameStream ≠ none))) ∨
        (stream.prefacePos < 8 ∧ now-stream.createdMs ≥ socketQuicPrefaceTimeoutMs) then
      socketStreamReject env st id socketStreamErrorPreface
    else return st
  else return st

/-- The first loop of `socket_stream_poll_incoming`. -/
def pollPending (env : Quic Ssl σ) (now : UInt64) :
    ℕ → Option ℕ → State Ssl σ → Except Fault (State Ssl σ)
  | _, none, st => .ok st
  | 0, some _, _ => .error .fuel
  | fuel+1, some id, st => do
    let stream ← st.load id
    let next := stream.next
    let st ← pollStream env now st id
    pollPending env now fuel next st

/-- A stream is put in front of the pending ones. -/
def State.pushPending (st : State Ssl σ) (id : ℕ) (incoming : SocketStream Ssl) : State Ssl σ :=
  { st.setStream id { incoming with next := st.sc.pendingStreams } with
    sc := { st.sc with
      pendingStreams := some id
      pendingStreamCount := st.sc.pendingStreamCount+1 } }

/-- One round of the second loop, for a stream that has been accepted. -/
def pollIncoming (env : Quic Ssl σ) (st : State Ssl σ) (ssl : Ssl) : Except Fault (State Ssl σ) := do
  let (id, st) ← socketStreamAllocate env st ssl .unknown false
  let incoming ← st.load id
  let (complete, st) ← socketStreamPrefaceRead env (st.pushPending id incoming) id
  let incoming ← st.load id
  if complete = false ∧ incoming.prefacePos = 8 then
    socketStreamReject env st id socketStreamErrorPreface
  else return st

/-- The second loop of `socket_stream_poll_incoming`, with at most `fuel` streams accepted. -/
def pollAccept (env : Quic Ssl σ) : ℕ → State Ssl σ → Except Fault (State Ssl σ)
  | fuel, st =>
    if st.sc.pendingStreamCount < socketQuicPendingStreamMax then
      match env.acceptStream st.quic with
      | (none, quic) => .ok { st with quic }
      | (some ssl, quic) =>
        match fuel with
        | 0 => .error .fuel
        | fuel+1 => do
          let st ← pollIncoming env { st with quic } ssl
          pollAccept env fuel st
    else .ok st

/-- `socket_stream_poll_incoming`. -/
def socketStreamPollIncoming (env : Quic Ssl σ) (fuel : ℕ) (st : State Ssl σ) :
    Except Fault (State Ssl σ) := do
  let (now, quic) := env.now st.quic
  let st ← pollPending env now st.allocated st.sc.pendingStreams { st with quic }
  pollAccept env fuel st

/-- `socket_stream_open`. -/
def socketStreamOpen (env : Quic Ssl σ) (st : State Ssl σ) (kind : SocketStreamKind) :
    Except Fault (Option ℕ × State Ssl σ) := do
  if st.sc.transport ≠ .quicConnection ∨ st.sc.connectionIdFinal = false ∨
      (kind ≠ .game ∧ kind ≠ .asset) then return (none, st)
  match env.newStream st.quic with
  | (none, quic) => return (none, { st with quic })
  | (some ssl, quic) =>
    let (id, st) ← socketStreamAllocate env { st with quic } ssl kind true
    return (some id, st)

/-- The loop of `socket_stream_accept`. -/
def acceptPending (st : State Ssl σ) (kind : SocketStreamKind) :
    Except Fault (Option ℕ × State Ssl σ) := do
  match ← findLink (fun _ stream => stream.kind = kind ∧ stream.prefacePos = 8) st st.allocated
      .head with
  | some (link, id) =>
    let stream ← st.load id
    let st ← st.storeLink link stream.next
    let stream ← st.load id
    let st ← (st.setStream id { stream with next := none }).countDown
    return (some id, st)
  | none => return (none, st)

/-- `socket_stream_accept`. -/
def socketStreamAccept (env : Quic Ssl σ) (fuel : ℕ) (st : State Ssl σ)
    (kind : SocketStreamKind) : Except Fault (Option ℕ × State Ssl σ) := do
  if st.sc.transport ≠ .quicConnection ∨ st.sc.connectionIdFinal = false then return (none, st)
  let st ← socketStreamPollIncoming env fuel st
  acceptPending st kind

/-- The result of `socket_quic_connection_prepare`: 1, 0 or -1. -/
inductive Prepared where
  | ready | waiting | fatal
deriving DecidableEq, Repr

/-- The handshake in `socket_quic_connection_prepare`: whether the connection identifier is final
afterwards. -/
def handshake (env : Quic Ssl σ) (connectionIdFinal : Bool) (s : σ) : Prepared × Bool × σ :=
  if connectionIdFinal then (.ready, true, s)
  else
    match env.doHandshake s with
    | (.ok _, s) =>
      let (exported, s) := env.connectionIdExport s
      (if exported then .ready else .fatal, exported, s)
    | (.want, s) => (.waiting, false, s)
    | (_, s) => (.fatal, false, s)

/-- The game stream is opened by a client and accepted by a server. -/
def acquireGame (env : Quic Ssl σ) (fuel : ℕ) (role : SocketRole) (st : State Ssl σ) :
    Except Fault (Option ℕ × State Ssl σ) :=
  match role with
  | .client => socketStreamOpen env st .game
  | .server => socketStreamAccept env fuel st .game

/-- `socket_quic_connection_prepare`. -/
def socketQuicConnectionPrepare (env : Quic Ssl σ) (fuel : ℕ) (st : State Ssl σ) :
    Except Fault (Prepared × State Ssl σ) := do
  let (result, connectionIdFinal, quic) := handshake env st.sc.connectionIdFinal st.quic
  let st := { st with sc := { st.sc with connectionIdFinal }, quic }
  if result ≠ .ready then return (result, st)
  if st.sc.gameStream ≠ none then return (.ready, st)
  let (handled, quic) :=
    if st.sc.role = .server then env.handleEvents st.quic else (true, st.quic)
  let st := { st with quic }
  if handled = false then return (.fatal, st)
  let (stream, st) ← acquireGame env fuel st.sc.role st
  return (if stream ≠ none then .ready else .waiting,
    { st with sc := { st.sc with gameStream := stream } })

/-- `socket_stream_ssl_result`. -/
def socketStreamSslResult {α : Type} (answer : SslAnswer α) (amount : ℕ) : SocketStreamResult :=
  match answer with
  | .ok _ => if amount ≠ 0 then .ok else .wouldBlock
  | .want => .wouldBlock
  | .finished => .finished
  | .failed => .error

/-- The amount that `SSL_write_ex` stores. -/
def amountWritten {size : ℕ} : SslAnswer { amount : ℕ // amount ≤ size } → ℕ
  | .ok amount => amount.val
  | _ => 0

/-- The bytes that `SSL_read_ex` stores. -/
def bytesRead {size : ℕ} : SslAnswer { bytes : List UInt8 // bytes.length ≤ size } → List UInt8
  | .ok bytes => bytes.val
  | _ => []

/-- The loop of `socket_stream_preface_write`. -/
def prefaceWriteLoop (env : Quic Ssl σ) : ℕ → SocketStream Ssl → σ →
    Except Fault (SocketStreamResult × SocketStream Ssl × σ)
  | fuel, stream, s =>
    if stream.isLocal ∧ stream.prefacePos < 8 then
      match fuel with
      | 0 => .error .fuel
      | fuel+1 =>
        let (answer, s) := env.writeEx s stream.ssl (stream.preface.val.drop stream.prefacePos)
        let status := socketStreamSslResult answer (amountWritten answer)
        if status ≠ .ok then .ok (status, stream, s)
        else
          prefaceWriteLoop env fuel
            { stream with prefacePos := stream.prefacePos+amountWritten answer } s
    else .ok (.ok, stream, s)

/-- `socket_stream_preface_write`. -/
def socketStreamPrefaceWrite (env : Quic Ssl σ) (st : State Ssl σ) (id : ℕ) :
    Except Fault (SocketStreamResult × State Ssl σ) := do
  let stream ← st.load id
  let (result, stream, quic) ← prefaceWriteLoop env 8 stream st.quic
  return (result, { st.setStream id stream with quic })

/-- `socket_stream_read`, with the bytes that have been stored in the buffer. -/
def socketStreamRead (env : Quic Ssl σ) (st : State Ssl σ) (id : ℕ) (len : ℕ) :
    Except Fault (SocketStreamResult × List UInt8 × State Ssl σ) := do
  let (preface, st) ← socketStreamPrefaceWrite env st id
  if preface ≠ .ok then return (preface, [], st)
  let stream ← st.load id
  let (answer, quic) := env.readEx st.quic stream.ssl len
  let bytes := bytesRead answer
  return (socketStreamSslResult answer bytes.length, bytes, { st with quic })

/-- `socket_stream_write`, with the amount that has been written. -/
def socketStreamWrite (env : Quic Ssl σ) (st : State Ssl σ) (id : ℕ) (buf : List UInt8) :
    Except Fault (SocketStreamResult × ℕ × State Ssl σ) := do
  let (preface, st) ← socketStreamPrefaceWrite env st id
  if preface ≠ .ok then return (preface, 0, st)
  if buf.length = 0 then return (.ok, 0, st)
  let stream ← st.load id
  let (answer, quic) := env.writeEx st.quic stream.ssl buf
  let amount := amountWritten answer
  return (socketStreamSslResult answer amount, amount, { st with quic })

/-- The functions that are called from outside, and the poll itself. -/
inductive Call where
  | poll
  | accept (kind : SocketStreamKind)
  | prepare
  | openStream (kind : SocketStreamKind)
  | read (id : ℕ) (len : ℕ)
  | write (id : ℕ) (buf : List UInt8)
  | destroy (id : ℕ)
deriving DecidableEq, Repr

/-- What a call hands out. -/
structure Answer where
  stream : Option ℕ := none
  result : SocketStreamResult := .ok
  bytes : List UInt8 := []
  amount : ℕ := 0
deriving DecidableEq, Repr

/-- One of the calls. The game stream that is prepared counts as handed out. -/
def perform (env : Quic Ssl σ) (fuel : ℕ) (st : State Ssl σ) :
    Call → Except Fault (Answer × State Ssl σ)
  | .poll => do
    let st ← socketStreamPollIncoming env fuel st
    return ({}, st)
  | .accept kind => do
    let (stream, st) ← socketStreamAccept env fuel st kind
    return ({ stream }, st)
  | .prepare => do
    let (_, st') ← socketQuicConnectionPrepare env fuel st
    return ({ stream := if st.sc.gameStream = none then st'.sc.gameStream else none }, st')
  | .openStream kind => do
    let (stream, st) ← socketStreamOpen env st kind
    return ({ stream }, st)
  | .read id len => do
    let (result, bytes, st) ← socketStreamRead env st id len
    return ({ result, bytes }, st)
  | .write id buf => do
    let (result, amount, st) ← socketStreamWrite env st id buf
    return ({ result, amount }, st)
  | .destroy id => do
    let st ← socketStreamDestroy env st id
    return ({}, st)

end LibAtrinik.Stream

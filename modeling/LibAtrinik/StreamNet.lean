import LibAtrinik.StreamModel

/-! A network under two connections: each direction of each stream is a reliable queue of bytes, and
a schedule says what every call moves. -/
namespace LibAtrinik.Stream

/-- The bytes in flight on each stream, the streams that have arrived and not been accepted yet,
and what the next calls will do: block, or move up to a number of bytes. -/
structure Net where
  schedule : List (Option ℕ) := []
  clock : List UInt64 := []
  opened : ℕ := 0
  arrived : List ℕ := []
  up : ℕ → List UInt8 := fun _ => []
  down : ℕ → List UInt8 := fun _ => []

namespace Net

/-- The next entry of the schedule; nothing moves any more at its end. -/
def next (s : Net) : Option ℕ := s.schedule.headD none

def advance (s : Net) : Net := { s with schedule := s.schedule.tail }

def now (s : Net) : UInt64 × Net := (s.clock.headD 0, { s with clock := s.clock.tail })

/-- One of the streams that have arrived is accepted. -/
def acceptStream (s : Net) : Option ℕ × Net :=
  match s.next with
  | none => (none, s.advance)
  | some n =>
    match s.arrived[n]? with
    | none => (none, s.advance)
    | some ssl => (some ssl, { s.advance with arrived := s.arrived.erase ssl })

/-- A new stream, which the other side can accept. -/
def newStream (s : Net) : Option ℕ × Net :=
  match s.next with
  | none => (none, s.advance)
  | some _ =>
    (some s.opened, { s.advance with opened := s.opened+1, arrived := s.arrived ++ [s.opened] })

/-- Some bytes are taken out of a queue. -/
def receive (schedule : Option ℕ) (queue : List UInt8) (size : ℕ) :
    SslAnswer { bytes : List UInt8 // bytes.length ≤ size } :=
  match schedule with
  | none => .want
  | some n => .ok ⟨queue.take (min n size), by
      rw [List.length_take]
      omega⟩

/-- Some of the bytes that are offered are taken. -/
def send (schedule : Option ℕ) (bytes : List UInt8) :
    SslAnswer { amount : ℕ // amount ≤ bytes.length } :=
  match schedule with
  | none => .want
  | some n => .ok ⟨min n bytes.length, Nat.min_le_right _ _⟩

/-- The side that opens the streams. -/
def opener : Quic ℕ Net where
  now := now
  doHandshake s := (.ok (), s)
  connectionIdExport s := (true, s)
  handleEvents s := (true, s)
  acceptStream s := (none, s)
  newStream := newStream
  readEx s ssl size :=
    let answer := receive s.next (s.down ssl) size
    (answer, { s.advance with
      down := Function.update s.down ssl ((s.down ssl).drop (bytesRead answer).length) })
  writeEx s ssl bytes :=
    let answer := send s.next bytes
    (answer, { s.advance with
      up := Function.update s.up ssl (s.up ssl ++ bytes.take (amountWritten answer)) })
  reset s _ _ := s
  free s _ := s

/-- The side that accepts them. -/
def acceptor : Quic ℕ Net where
  now := now
  doHandshake s := (.ok (), s)
  connectionIdExport s := (true, s)
  handleEvents s := (true, s)
  acceptStream := acceptStream
  newStream s := (none, s)
  readEx s ssl size :=
    let answer := receive s.next (s.up ssl) size
    (answer, { s.advance with
      up := Function.update s.up ssl ((s.up ssl).drop (bytesRead answer).length) })
  writeEx s ssl bytes :=
    let answer := send s.next bytes
    (answer, { s.advance with
      down := Function.update s.down ssl (s.down ssl ++ bytes.take (amountWritten answer)) })
  reset s _ _ := s
  free s _ := s

end Net

end LibAtrinik.Stream

import LibAtrinik.ScanFormat

/-! The rendezvous messages of `socket_direct.c`: printed with one format and scanned with another.
Strings are lists of characters without the terminator. -/
namespace LibAtrinik.Rendezvous

open ScanFormat

/-- What comes from the platform: `inet_pton` for the two address families, whether the second is
compiled in, and what `%u` stores for a number that does not fit. -/
structure Platform where
  inetPton4 : List Char → Bool
  inetPton6 : List Char → Bool
  haveIpv6 : Bool
  wide : Bool → ℕ → ℕ

/-- `[0-9a-fA-F:.]`. -/
def isHostChar (c : Char) : Bool :=
  c.isDigit || ('a' ≤ c && c ≤ 'f') || ('A' ≤ c && c ≤ 'F') || c == ':' || c == '.'

/-- `[0-9a-f]`. -/
def isLowerHex (c : Char) : Bool := c.isDigit || ('a' ≤ c && c ≤ 'f')

/-- `[a-z0-9]`. -/
def isKindChar (c : Char) : Bool := ('a' ≤ c && c ≤ 'z') || c.isDigit

/-- What is known of `inet_pton`: addresses are short, not empty, and made of host characters. -/
def Platform.Presents (p : Platform) : Prop :=
  ∀ host, p.inetPton4 host = true ∨ p.inetPton6 host = true →
    host ≠ [] ∧ host.length < 64 ∧ ∀ c ∈ host, isHostChar c = true

inductive SocketCandidateKind where
  | lan | ipv6 | prflx | mapped | srflx | directory | num
deriving DecidableEq, Repr

/-- The names in `socket_candidate_kinds`. -/
def socketCandidateKindName : SocketCandidateKind → List Char
  | .lan => "lan".toList
  | .ipv6 => "ipv6".toList
  | .prflx => "prflx".toList
  | .mapped => "mapped".toList
  | .srflx => "srflx".toList
  | .directory => "directory".toList
  | .num => "unknown".toList

def socketCandidateKindParse (name : List Char) : Option SocketCandidateKind :=
  [.lan, .ipv6, .prflx, .mapped, .srflx, .directory].find? fun kind =>
    name = socketCandidateKindName kind

def stringIsHexFixed (str : Option (List Char)) (length : ℕ) (lowercaseOnly : Bool) : Bool :=
  match str with
  | none => false
  | some str => str.length == length &&
    str.all fun c => isLowerHex c || (!lowercaseOnly && ('A' ≤ c && c ≤ 'F'))

def socketRendezvousTicketValid (ticket : Option (List Char)) : Bool :=
  stringIsHexFixed ticket 64 true

def socketRendezvousHostValid (p : Platform) (host : Option (List Char)) : Bool :=
  match host with
  | none => false
  | some host => p.inetPton4 host || (p.haveIpv6 && p.inetPton6 host)

/-- `snprintf` of a string with `%s`. -/
def snprintf (size : ℕ) (text : List Char) : List Char := text.take (size-1)

def clientHead : List Char := "\x7b\"type\":\"client_candidate\",\"host\":\"".toList

def serverHead : List Char := "\x7b\"type\":\"server_candidate\",\"host\":\"".toList

def completeHead : List Char := "\x7b\"type\":\"complete\",\"ticket\":\"".toList

def portText : List Char := "\",\"port\":".toList

def clientTicketText : List Char := ",\"ticket\":\"".toList

def kindText : List Char := ",\"kind\":\"".toList

def serverTicketText : List Char := "\",\"ticket\":\"".toList

def tailText : List Char := "\"\x7d".toList

/-- The format with which `socket_rendezvous_client_candidate_parse` scans. -/
def clientFormat : List Directive :=
  [.text clientHead, .scanset 64 isHostChar, .text portText, .unsigned, .text clientTicketText,
    .scanset 64 isLowerHex, .text tailText]

/-- The format with which `socket_rendezvous_server_candidate_parse` scans. -/
def serverFormat : List Directive :=
  [.text serverHead, .scanset 64 isHostChar, .text portText, .unsigned, .text kindText,
    .scanset 15 isKindChar, .text serverTicketText, .scanset 64 isLowerHex, .text tailText]

/-- The destinations of a parsed client candidate: which pointers are given, and the size of the
buffer for the host. -/
structure ClientOutput where
  host : Bool := true
  hostSize : ℕ
  port : Bool := true
  ticket : Bool := true

structure ClientCandidate where
  host : List Char
  port : UInt16
  ticket : List Char
deriving DecidableEq, Repr

def socketRendezvousClientCandidateParse (p : Platform) (message : Option (List Char))
    (out : ClientOutput) : Option ClientCandidate :=
  match message with
  | none => none
  | some message =>
    if out.host = false ∨ out.hostSize = 0 ∨ out.port = false ∨ out.ticket = false then none
    else
      match sscanf p.wide clientFormat message with
      | ([.word parsedHost, .number parsedPort, .word parsedTicket], consumed) =>
        if message.drop consumed ≠ [] ∨ parsedPort = 0 ∨ parsedPort > 65535 ∨
            socketRendezvousHostValid p (some parsedHost) = false ∨
            socketRendezvousTicketValid (some parsedTicket) = false ∨
            parsedHost.length ≥ out.hostSize then none
        else
          some {
            host := snprintf out.hostSize parsedHost
            port := parsedPort.toUInt16
            ticket := snprintf 65 parsedTicket }
      | _ => none

/-- `socket_direct_candidate_t`. -/
structure SocketDirectCandidate where
  host : List Char
  port : UInt16
  kind : SocketCandidateKind
deriving DecidableEq, Repr

/-- `candidate` says whether the pointer to the destination is given. -/
def socketRendezvousServerCandidateParse (p : Platform) (message expectedTicket : Option (List Char))
    (candidate : Bool) : Option SocketDirectCandidate :=
  match message, expectedTicket with
  | some message, some expectedTicket =>
    if candidate = false ∨ socketRendezvousTicketValid (some expectedTicket) = false then none
    else
      match sscanf p.wide serverFormat message with
      | ([.word host, .number port, .word kind, .word ticket], consumed) =>
        if message.drop consumed ≠ [] ∨ port = 0 ∨ port > 65535 ∨ ticket ≠ expectedTicket ∨
            socketRendezvousHostValid p (some host) = false then none
        else
          match socketCandidateKindParse kind with
          | none => none
          | some parsedKind =>
            some { host := snprintf 65 host, port := port.toUInt16, kind := parsedKind }
      | _ => none
  | _, _ => none

/-- What is printed for a message of the type, when its fields allow it. -/
def messageText (p : Platform) (type : List Char) (host : Option (List Char)) (port : UInt16)
    (kind : SocketCandidateKind) (ticket : List Char) : Option (List Char) :=
  if type = "complete".toList then some (completeHead ++ ticket ++ tailText)
  else if type = "client_candidate".toList ∧ socketRendezvousHostValid p host = true then
    host.map fun host => clientHead ++ host ++ portText ++ Nat.toDigits 10 port.toNat ++
      clientTicketText ++ ticket ++ tailText
  else if type = "server_candidate".toList ∧ socketRendezvousHostValid p host = true ∧
      kind ≠ .num then
    host.map fun host => serverHead ++ host ++ portText ++ Nat.toDigits 10 port.toNat ++
      kindText ++ socketCandidateKindName kind ++ serverTicketText ++ ticket ++ tailText
  else none

/-- The content of the buffer when the message has been rendered. `buffer` says whether there is
one. -/
def socketRendezvousMessageRender (p : Platform) (buffer : Bool) (size : ℕ)
    (type host : Option (List Char)) (port : UInt16) (kind : SocketCandidateKind)
    (ticket : Option (List Char)) : Option (List Char) :=
  if buffer = false ∨ size = 0 then none
  else
    match type, ticket with
    | some type, some ticket =>
      if socketRendezvousTicketValid (some ticket) = false then none
      else
        match messageText p type host port kind ticket with
        | none => none
        | some text => if text.length < size then some (snprintf size text) else none
    | _, _ => none

def socketRendezvousCompleteParse (p : Platform) (message expectedTicket : Option (List Char)) :
    Bool :=
  match message, socketRendezvousMessageRender p true 128 (some "complete".toList) none 0 .num
    expectedTicket with
  | some message, some expected => message == expected
  | _, _ => false

end LibAtrinik.Rendezvous

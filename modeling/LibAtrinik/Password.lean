import LibAtrinik.HexText
import LibAtrinik.SocketRendezvous

/-! The password records of `password.c`. Random bytes and the key derivation come from outside, and
`wide` is what `%u` stores for a number that does not fit. -/
namespace LibAtrinik.Password

open ScanFormat Rendezvous

def passwordAlgorithm : List Char := "argon2id".toList
def passwordVersion : ℕ := 19
def passwordMemoryKib : ℕ := 65536
def passwordIterations : ℕ := 3
def passwordLanes : ℕ := 1
def passwordSaltSize : ℕ := 16
def passwordHashSize : ℕ := 32
def passwordRecordSize : ℕ := 256
def passwordMinMemoryKib : ℕ := 8192
def passwordMaxMemoryKib : ℕ := 262144
def passwordMinIterations : ℕ := 1
def passwordMaxIterations : ℕ := 10
def passwordMinLanes : ℕ := 1
def passwordMaxLanes : ℕ := 4

/-- An array of bytes. -/
abbrev Bytes (n : ℕ) := { bytes : List UInt8 // bytes.length = n }

structure PasswordParameters where
  memoryKib : ℕ
  iterations : ℕ
  lanes : ℕ
  salt : Bytes passwordSaltSize
  hash : Bytes passwordHashSize
deriving DecidableEq

/-- The loop of `string_tohex`; the last byte is never followed by a colon. -/
def tohexLoop (resultsize : ℕ) (sep : Bool) : List UInt8 → List Char → List Char
  | [], result => result
  | b::str, result =>
    let sep := if str = [] then false else sep
    let need := if sep then 3 else 2
    if result.length + need > resultsize-1 then result
    else tohexLoop resultsize sep str (result ++ [HexText.digit (b.toNat/16),
      HexText.digit (b.toNat%16)] ++ if sep then [':'] else [])

/-- The text; the number of characters that is returned is its length. -/
def stringTohex (str : List UInt8) (resultsize : ℕ) (sep : Bool) : List Char :=
  tohexLoop resultsize sep str []

/-- The loop of `string_fromhex`, with the digits of the current byte that were found. -/
def fromhexLoop (resultsize : ℕ) : List Char → ℕ → UInt8 → List UInt8 → List UInt8
  | [], _, _, result => result
  | x::str, found, c, result =>
    if result.length < resultsize then
      let digit := HexText.isDigit x
      let c := if digit then c <<< 4 ||| UInt8.ofNat (HexText.value x) else c
      let found := if digit then found+1 else found
      if found = 2 then fromhexLoop resultsize str 0 0 (result++[c])
      else fromhexLoop resultsize str found c result
    else result

/-- The bytes; the number of elements that is returned is their number. -/
def stringFromhex (str : List Char) (resultsize : ℕ) : List UInt8 :=
  fromhexLoop resultsize str 0 0 []

def recordHead : List Char := "$argon2id$v=".toList

def memoryText : List Char := "$m=".toList

def iterationsText : List Char := ",t=".toList

def lanesText : List Char := ",p=".toList

def dollarText : List Char := "$".toList

/-- The format with which `password_parse` scans. -/
def recordFormat : List Directive :=
  [.text recordHead, .unsigned, .text memoryText, .unsigned, .text iterationsText, .unsigned,
    .text lanesText, .unsigned, .text dollarText, .scanset 32 HexText.isDigit, .text dollarText,
    .scanset 64 HexText.isDigit]

/-- What `$%s$v=%u$m=%u,t=%u,p=%u$%s$%s` prints. -/
def recordText (memoryKib iterations lanes : ℕ) (saltHex hashHex : List Char) : List Char :=
  dollarText ++ passwordAlgorithm ++ "$v=".toList ++ Nat.toDigits 10 passwordVersion ++
    memoryText ++ Nat.toDigits 10 memoryKib ++ iterationsText ++ Nat.toDigits 10 iterations ++
    lanesText ++ Nat.toDigits 10 lanes ++ dollarText ++ saltHex ++ dollarText ++ hashHex

/-- `string_fromhex` into an array, when that is filled. -/
def fromhexInto (n : ℕ) (str : List Char) : Option (Bytes n) :=
  if h : (stringFromhex str n).length = n then some ⟨stringFromhex str n,h⟩ else none

def passwordParse (wide : Bool → ℕ → ℕ) (record : Option (List Char)) : Option PasswordParameters :=
  match record with
  | none => none
  | some record =>
    if record.length ≥ passwordRecordSize then none
    else
      match sscanf wide recordFormat record with
      | ([.number version, .number memoryKib, .number iterations, .number lanes, .word saltHex,
          .word hashHex], consumed) =>
        if record.drop consumed ≠ [] ∨ version ≠ passwordVersion ∨
            memoryKib < passwordMinMemoryKib ∨ memoryKib > passwordMaxMemoryKib ∨
            iterations < passwordMinIterations ∨ iterations > passwordMaxIterations ∨
            lanes < passwordMinLanes ∨ lanes > passwordMaxLanes ∨
            saltHex.length ≠ passwordSaltSize*2 ∨ hashHex.length ≠ passwordHashSize*2 then none
        else
          let text := recordText memoryKib iterations lanes saltHex hashHex
          let canonical := snprintf passwordRecordSize text
          if text.length > 0 ∧ text.length < passwordRecordSize ∧ record = canonical then do
            let salt ← fromhexInto passwordSaltSize saltHex
            let hash ← fromhexInto passwordHashSize hashHex
            some ⟨memoryKib,iterations,lanes,salt,hash⟩
          else none
      | _ => none

/-- The texts that `password_record_create` makes of the salt and the hash. -/
def saltText (q : PasswordParameters) : List Char :=
  stringTohex q.salt.val (passwordSaltSize*2+1) false

def hashText (q : PasswordParameters) : List Char :=
  stringTohex q.hash.val (passwordHashSize*2+1) false

/-- The record as `password_record_create` renders it. -/
def passwordRender (q : PasswordParameters) : List Char :=
  snprintf passwordRecordSize
    (recordText q.memoryKib q.iterations q.lanes (saltText q) (hashText q))

/-- Whether a record was made, and the record; `none` for one that is not given. -/
def passwordRecordCreate (randBytes : Option (Bytes passwordSaltSize))
    (derive : List Char → ℕ → ℕ → ℕ → Bytes passwordSaltSize → Option (Bytes passwordHashSize))
    (password : Option (List Char)) : Option (List Char) :=
  match password, randBytes with
  | some password, some salt =>
    match derive password passwordMemoryKib passwordIterations passwordLanes salt with
    | none => none
    | some hash =>
      let q : PasswordParameters := ⟨passwordMemoryKib,passwordIterations,passwordLanes,salt,hash⟩
      if (saltText q).length ≠ passwordSaltSize*2 ∨ (hashText q).length ≠ passwordHashSize*2 then
        none
      else
        let length :=
          (recordText q.memoryKib q.iterations q.lanes (saltText q) (hashText q)).length
        if length > 0 ∧ length < passwordRecordSize then some (passwordRender q) else none
  | _, _ => none

end LibAtrinik.Password

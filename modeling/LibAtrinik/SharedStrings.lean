import Mathlib

/-! The shared strings. Strings with the same hash are in one chain. The head of a chain points back
to its slot of the hash table and each other entry to the one before it; both pointers share a
field, and the top bit of the reference count tells which of them is there. The statistics are left
out. -/
namespace LibAtrinik.SharedStrings

/-- Ways in which the code goes wrong: a pointer to no entry, the other member of the union, and a
walk that is longer than the memory. -/
inductive Fault where
  | dangling | confused | endless
deriving DecidableEq, Repr

/-- The number of addresses. -/
def addresses : ℕ := 2^64

/-- The address of a `shared_string`. -/
abbrev Addr : Type := Fin (2^64)

/-- The bytes of a string up to its terminator. -/
abbrev CString : Type := { bytes : List UInt8 // 0 ∉ bytes }

def tableSize : ℕ := 8266

/-- An element of the hash table. -/
abbrev Slot : Type := Fin tableSize

def maxString : ℕ := 20

def topBit : UInt64 := (1 : UInt64) <<< 63

/-- `char` has a sign, which the conversion to `unsigned long` extends. -/
def charToULong (c : UInt8) : UInt64 := c.toInt8.toInt64.toUInt64

/-- The loop of `hashstr`. -/
def hashLoop : List UInt8 → ℕ → UInt32 → UInt64 → UInt64
  | [], _, _, hash => hash
  | c :: p, i, rot, hash =>
    if i < maxString then
      let hash := hash ^^^ (charToULong c <<< rot.toUInt64)
      let rot := rot+2
      hashLoop p (i+1) (if rot ≥ 56 then 0 else rot) hash
    else hash

/-- `hashstr`. -/
def hashstr (str : CString) : Slot :=
  ⟨(hashLoop str.val 0 0 0).toNat % tableSize, Nat.mod_lt _ (by decide)⟩

/-- The union in `struct _shared_string`. -/
inductive Union where
  | array (slot : Slot)
  | previous (entry : Option Addr)
deriving DecidableEq

/-- `struct _shared_string`. -/
structure SharedString where
  u : Union
  next : Option Addr
  refcount : UInt64
  string : CString
deriving DecidableEq

/-- The hash table and the entries in memory. -/
structure State where
  hashTable : Slot → Option Addr
  memory : Addr → Option SharedString

/-- A `const char *`: the string of an entry, or a string somewhere else. -/
inductive Str where
  | shared (id : Addr)
  | other (contents : CString)
deriving DecidableEq

/-- `u.array`. -/
def SharedString.array (ss : SharedString) : Except Fault Slot :=
  match ss.u with
  | .array slot => .ok slot
  | .previous _ => .error .confused

/-- `u.previous`. -/
def SharedString.previous (ss : SharedString) : Except Fault (Option Addr) :=
  match ss.u with
  | .array _ => .error .confused
  | .previous entry => .ok entry

def State.load (st : State) (id : Addr) : Except Fault SharedString :=
  match st.memory id with
  | some ss => .ok ss
  | none => .error .dangling

def State.set (st : State) (id : Addr) (ss : SharedString) : State :=
  { st with memory := Function.update st.memory id (some ss) }

def State.modify (st : State) (id : Addr) (f : SharedString → SharedString) :
    Except Fault State := do
  let ss ← st.load id
  return st.set id (f ss)

def State.free (st : State) (id : Addr) : State :=
  { st with memory := Function.update st.memory id none }

def State.setSlot (st : State) (slot : Slot) (target : Option Addr) : State :=
  { st with hashTable := Function.update st.hashTable slot target }

def State.contents (st : State) : Str → Except Fault CString
  | .shared id => do
    let ss ← st.load id
    return ss.string
  | .other contents => .ok contents

/-- `strcmp` says that the string of an entry is this one. -/
def strcmpEq (st : State) (id : Addr) (str : Str) : Except Fault Bool := do
  let ss ← st.load id
  let contents ← st.contents str
  return ss.string = contents

/-- The test of `add_string`, which compares the pointers first. -/
def sameString (st : State) (id : Addr) (str : Str) : Except Fault Bool :=
  if str = .shared id then .ok true else strcmpEq st id str

/-- `new_shared_string`, with the address that `malloc` gives. -/
def newSharedString (malloc : Addr) (st : State) (contents : CString) : State :=
  st.set malloc { u := .previous none, next := none, refcount := 1, string := contents }

/-- One more reference to an entry. -/
def shareEntry (st : State) (id : Addr) : Except Fault (Addr × State) := do
  let st ← st.modify id fun ss => { ss with refcount := ss.refcount+1 }
  return (id, st)

/-- The loops of `add_string` and `find_string`, which look for a later entry of a chain that passes
the test: the entry at which the loop ends, and whether it has passed. -/
def chainLoop (st : State) (test : Addr → Except Fault Bool) :
    ℕ → Addr → Except Fault (Addr × Bool)
  | fuel, id => do
    let ss ← st.load id
    match ss.next with
    | none => return (id, false)
    | some next =>
      match fuel with
      | 0 => throw .endless
      | fuel+1 =>
        if ← test next then return (next, true)
        chainLoop st test fuel next

/-- A new entry at the end of a chain. -/
def appendEntry (malloc : Addr) (st : State) (contents : CString) (last : Addr) :
    Except Fault (Addr × State) := do
  let st ← (newSharedString malloc st contents).modify last fun ss => { ss with next := some malloc }
  let st ← st.modify malloc fun ss => { ss with u := .previous (some last) }
  return (malloc, st)

/-- A new entry in an empty slot. -/
def insertHead (malloc : Addr) (st : State) (contents : CString) (slot : Slot) :
    Except Fault (Addr × State) := do
  let st := (newSharedString malloc st contents).setSlot slot (some malloc)
  let st ← st.modify malloc fun ss => { ss with refcount := ss.refcount ||| topBit }
  let st ← st.modify malloc fun ss => { ss with u := .array slot }
  return (malloc, st)

/-- `add_string`. -/
def addString (malloc : Addr) (st : State) (str : Str) : Except Fault (Addr × State) := do
  let contents ← st.contents str
  match st.hashTable (hashstr contents) with
  | some head =>
    if ← sameString st head str then shareEntry st head
    else
      let (id, found) ← chainLoop st (fun id => sameString st id str) addresses head
      if found then shareEntry st id else appendEntry malloc st contents id
  | none => insertHead malloc st contents (hashstr contents)

/-- `add_refcount`. -/
def addRefcount (st : State) (id : Addr) : Except Fault (Addr × State) :=
  shareEntry st id

/-- `query_refcount`, which returns an `int`. -/
def queryRefcount (st : State) (id : Addr) : Except Fault Int32 := do
  let ss ← st.load id
  return (ss.refcount &&& ~~~topBit).toUInt32.toInt32

/-- `find_string`. -/
def findString (st : State) (str : Str) : Except Fault (Option Addr) := do
  let contents ← st.contents str
  match st.hashTable (hashstr contents) with
  | some head =>
    if ← strcmpEq st head str then return some head
    else
      let (id, found) ← chainLoop st (fun id => strcmpEq st id str) addresses head
      return if found then some id else none
  | none => return none

/-- The head of a chain is taken out; the next entry becomes the head. -/
def unlinkHead (st : State) (ss : SharedString) : Except Fault State := do
  let slot ← ss.array
  match ss.next with
  | some next =>
    let st ← (st.setSlot slot (some next)).modify next fun ss => { ss with u := .array slot }
    st.modify next fun ss => { ss with refcount := ss.refcount ||| topBit }
  | none => return st.setSlot slot none

/-- The link back from the next entry, if there is one. -/
def relinkNext (st : State) (next previous : Option Addr) : Except Fault State :=
  match next with
  | some next => st.modify next fun ss => { ss with u := .previous previous }
  | none => .ok st

/-- Another entry is taken out. -/
def unlinkEntry (st : State) (ss : SharedString) : Except Fault State := do
  let previous ← ss.previous
  let st ← relinkNext st ss.next previous
  match previous with
  | some previous => st.modify previous fun other => { other with next := ss.next }
  | none => throw .dangling

/-- `free_string_shared`. -/
def freeStringShared (st : State) (id : Addr) : Except Fault State := do
  let st ← st.modify id fun ss => { ss with refcount := ss.refcount-1 }
  let ss ← st.load id
  if ss.refcount &&& ~~~topBit = 0 then
    let st ← if ss.refcount &&& topBit ≠ 0 then unlinkHead st ss else unlinkEntry st ss
    return st.free id
  else return st

/-- The functions that are called from outside. -/
inductive Call where
  | addString (str : Str)
  | addRefcount (id : Addr)
  | findString (str : Str)
  | freeStringShared (id : Addr)
deriving DecidableEq

/-- One of the calls, with the handle that it returns. -/
def perform (malloc : Addr) (st : State) : Call → Except Fault (Option Addr × State)
  | .addString str => do
    let (id, st) ← addString malloc st str
    return (some id, st)
  | .addRefcount id => do
    let (id, st) ← addRefcount st id
    return (some id, st)
  | .findString str => do
    let answer ← findString st str
    return (answer, st)
  | .freeStringShared id => do
    let st ← freeStringShared st id
    return (none, st)

/-- `toolkit_shstr_init`: an empty table. -/
def State.init : State where
  hashTable _ := none
  memory _ := none

end LibAtrinik.SharedStrings

import LibAtrinik.SortLinkedList

/-! The memory pools. The chunks of a pool are in puddles, one list of them for each exponent of the
array size, and the records of the puddles are chunks of a pool themselves. The callbacks, the sizes
of the chunks and the statistics are left out, and so is what the users write into their chunks. -/
namespace LibAtrinik.Mempool

open SortLinkedList

/-- Ways in which the code goes wrong: an access to memory that is no chunk, `abort`, a failed
assertion, a walk that does not end, and an allocation that has no answer. -/
inductive Fault where
  | memory | abort | assertion | endless | unanswered
deriving DecidableEq, Repr

/-- A chunk in a block of memory, by its place. The data behind the chunk has the same address. -/
abbrev Addr := ℕ × ℕ

/-- A pointer to a chunk, where the end marker is a chunk of its own. -/
inductive Pointer where
  | null
  | endMarker
  | chunk (a : Addr)
deriving DecidableEq, Repr

/-- `mempool_puddle_struct`. -/
structure Puddle where
  next : Option Addr
  firstChunk : Pointer
  firstFree : Pointer
  lastFree : Pointer
  nrofFree : UInt32
deriving DecidableEq, Repr

/-- `mempool_chunk_struct` with the data that follows it. -/
structure Chunk where
  next : Pointer
  data : Puddle
deriving DecidableEq, Repr

def Puddle.zero : Puddle := ⟨none, .null, .null, .null, 0⟩

def Chunk.zero : Chunk := ⟨.null, .zero⟩

/-- An exponent below `MEMPOOL_NROF_FREELISTS`. -/
abbrev Exponent := Fin 8

/-- `mempool_struct`. -/
structure Pool where
  expandSize : ℕ
  flags : UInt32
  freelist : Exponent → Pointer
  nrofFree : Exponent → ℕ
  nrofAllocated : Exponent → ℕ
  puddlelist : Exponent → Option Addr

/-- `MEMPOOL_BYPASS_POOLS`. -/
def bypassPools : UInt32 := 1

/-- `MEMPOOL_ALLOW_FREEING`. -/
def allowFreeing : UInt32 := 2

/-- `mempool_create`. -/
def mempoolCreate (expand : ℕ) (flags : UInt32) : Pool where
  expandSize := expand
  flags := flags
  freelist := fun _ => .endMarker
  nrofFree := fun _ => 0
  nrofAllocated := fun _ => 0
  puddlelist := fun _ => none

def Pool.bypasses (p : Pool) : Bool := p.flags &&& bypassPools ≠ 0

def Pool.freeable (p : Pool) : Bool := p.flags &&& allowFreeing ≠ 0

/-- The number of chunks in a puddle, `expand_size >> e`. -/
def Pool.arrays (p : Pool) (e : Exponent) : ℕ := p.expandSize >>> e.val

/-- The pools, of which the first one is `pool_puddle`, and the chunks in memory. -/
structure State where
  pools : ℕ → Pool
  memory : Addr → Option Chunk
  deiniting : Bool

/-- `pool_puddle`. -/
def poolPuddle : ℕ := 0

section Memory

def Pointer.addr : Pointer → Except Fault Addr
  | .chunk a => .ok a
  | _ => .error .memory

def State.load (s : State) (a : Addr) : Except Fault Chunk :=
  match s.memory a with
  | some c => .ok c
  | none => .error .memory

def State.store (s : State) (a : Addr) (c : Chunk) : State :=
  { s with memory := Function.update s.memory a (some c) }

def State.modify (s : State) (a : Addr) (f : Chunk → Chunk) : Except Fault State := do
  let c ← s.load a
  return s.store a (f c)

/-- `chunk->next = next`. -/
def State.setNext (s : State) (a : Addr) (next : Pointer) : Except Fault State :=
  s.modify a fun c => { c with next := next }

def State.modifyPuddle (s : State) (a : Addr) (f : Puddle → Puddle) : Except Fault State :=
  s.modify a fun c => { c with data := f c.data }

def State.modifyPool (s : State) (pool : ℕ) (f : Pool → Pool) : State :=
  { s with pools := Function.update s.pools pool (f (s.pools pool)) }

/-- `xcalloc`, which answers with a block of memory. -/
def State.xcalloc (s : State) (block n : ℕ) : State :=
  { s with memory := fun a => if a.1 = block ∧ a.2 < n then some .zero else s.memory a }

/-- `free` of a block by the pointer to its first chunk. -/
def State.free (s : State) (p : Pointer) : Except Fault State := do
  let a ← p.addr
  if a.2 = 0 then
    let _ ← s.load a
    return { s with memory := fun c => if c.1 = a.1 then none else s.memory c }
  else .error .memory

end Memory

def Pool.setFreelist (p : Pool) (e : Exponent) (target : Pointer) : Pool :=
  { p with freelist := Function.update p.freelist e target }

def Pool.setNrofFree (p : Pool) (e : Exponent) (n : ℕ) : Pool :=
  { p with nrofFree := Function.update p.nrofFree e n }

def Pool.setNrofAllocated (p : Pool) (e : Exponent) (n : ℕ) : Pool :=
  { p with nrofAllocated := Function.update p.nrofAllocated e n }

def Pool.setPuddlelist (p : Pool) (e : Exponent) (target : Option Addr) : Pool :=
  { p with puddlelist := Function.update p.puddlelist e target }

/-- The loop of `mempool_expand` that links the new chunks, of which some are left. -/
def linkChunks : ℕ → Addr → State → Except Fault State
  | 0, _, s => .ok s
  | 1, chunk, s => s.setNext chunk .endMarker
  | n+2, chunk, s => do
    let s ← s.setNext chunk (.chunk (chunk.1, chunk.2+1))
    linkChunks (n+1) (chunk.1, chunk.2+1) s

/-- `mempool_expand`, where `getPuddle` is `mempool_get` of `pool_puddle` and `xcalloc` answers with
the block. -/
def mempoolExpand (getPuddle : State → Except Fault (Addr × State)) (block : ℕ) (s : State)
    (pool : ℕ) (e : Exponent) : Except Fault State :=
  if (s.pools pool).nrofFree e ≠ 0 then .error .assertion
  else do
    let nrofArrays := (s.pools pool).arrays e
    let nrofArrays := if nrofArrays = 0 then 1 else nrofArrays
    let s := s.xcalloc block nrofArrays
    let s := s.modifyPool pool fun p =>
      ((p.setFreelist e (.chunk (block, 0))).setNrofAllocated e
        (p.nrofAllocated e+nrofArrays)).setNrofFree e nrofArrays
    let s ← linkChunks nrofArrays (block, 0) s
    let (p, s) ← getPuddle s
    let s ← s.modifyPuddle p fun puddle =>
      { puddle with firstChunk := .chunk (block, 0), next := (s.pools pool).puddlelist e }
    return s.modifyPool pool fun pool => pool.setPuddlelist e (some p)

/-- The end of `mempool_get_chunk`, which takes the first chunk of the free list. -/
def takeChunk (s : State) (pool : ℕ) (e : Exponent) : Except Fault (Addr × State) := do
  let newObj ← ((s.pools pool).freelist e).addr
  let c ← s.load newObj
  let s := s.modifyPool pool fun p =>
    (p.setFreelist e c.next).setNrofFree e (p.nrofFree e-1)
  let s ← s.setNext newObj .null
  return (newObj, s)

/-- `mempool_get_chunk`. The blocks are what `xcalloc` answers with. -/
def mempoolGetChunk (blocks : List ℕ) (s : State) (pool : ℕ) (e : Exponent) :
    Except Fault (Addr × State) :=
  if (s.pools pool).bypasses then
    match blocks with
    | [] => .error .unanswered
    | block :: _ => do
      let s := s.xcalloc block 1
      let s := s.modifyPool pool fun p => p.setNrofAllocated e (p.nrofAllocated e+1)
      let s ← s.setNext (block, 0) .null
      return ((block, 0), s)
  else if (s.pools pool).nrofFree e = 0 then
    match blocks with
    | [] => .error .unanswered
    | block :: blocks => do
      let s ← mempoolExpand (fun s => mempoolGetChunk blocks s poolPuddle 0) block s pool e
      takeChunk s pool e
  else do
    let head ← ((s.pools pool).freelist e).addr
    let s ← s.modifyPuddle head fun _ => .zero
    takeChunk s pool e

/-- `mempool_return_chunk`. -/
def mempoolReturnChunk (s : State) (pool : ℕ) (e : Exponent) (chunk : Addr) :
    Except Fault State := do
  let c ← s.load chunk
  if c.next ≠ .null then .error .abort
  else if (s.pools pool).bypasses then do
    let s ← s.free (.chunk chunk)
    return s.modifyPool pool fun p => p.setNrofAllocated e (p.nrofAllocated e-1)
  else do
    let s ← s.setNext chunk ((s.pools pool).freelist e)
    return s.modifyPool pool fun p =>
      (p.setFreelist e (.chunk chunk)).setNrofFree e (p.nrofFree e+1)

/-- A free chunk is put into the list of its puddle by `mempool_free_puddles`. -/
def linkFree (puddle chunk : Addr) (s : State) : Except Fault State := do
  let record ← s.load puddle
  let s ←
    if record.data.nrofFree = 0 then do
      let s ← s.modifyPuddle puddle fun p =>
        { p with firstFree := .chunk chunk, lastFree := .chunk chunk }
      s.setNext chunk .null
    else do
      let s ← s.setNext chunk record.data.firstFree
      s.modifyPuddle puddle fun p => { p with firstFree := .chunk chunk }
  s.modifyPuddle puddle fun p => { p with nrofFree := p.nrofFree+1 }

/-- The loop of `mempool_free_puddles` over the chunks of a puddle, of which some are left. -/
def countFree (puddle : Addr) (firstChunk : Pointer) : ℕ → ℕ → State → Except Fault State
  | 0, _, s => .ok s
  | n+1, j, s => do
    let first ← firstChunk.addr
    let chunk : Addr := (first.1, first.2+j)
    let c ← s.load chunk
    let s ← if c.next ≠ .null then linkFree puddle chunk s else .ok s
    countFree puddle firstChunk n (j+1) s

/-- The loop of `mempool_free_puddles` over the puddles of an exponent. -/
def freePuddles (pool : ℕ) (e : Exponent) (nrofArrays : ℕ) :
    ℕ → Option Addr → State → ℕ → Except Fault (State × ℕ)
  | _, none, s, freed => .ok (s, freed)
  | 0, some _, _, _ => .error .endless
  | fuel+1, some puddle, s, freed => do
    let nextPuddle := (← s.load puddle).data.next
    let s ← s.modifyPuddle puddle fun p =>
      { p with firstFree := .null, lastFree := .null, nrofFree := 0 }
    let s ← countFree puddle (← s.load puddle).data.firstChunk nrofArrays 0 s
    let record ← s.load puddle
    if record.data.nrofFree.toNat = nrofArrays ∨ (s.deiniting ∧ pool = poolPuddle) then do
      let s ← s.free record.data.firstChunk
      let s ← if ¬ s.deiniting ∨ pool ≠ poolPuddle then mempoolReturnChunk s poolPuddle 0 puddle
        else .ok s
      let s := s.modifyPool pool fun p =>
        (p.setNrofFree e (p.nrofFree e-nrofArrays)).setNrofAllocated e
          (p.nrofAllocated e-nrofArrays)
      freePuddles pool e nrofArrays fuel nextPuddle s (freed+1)
    else do
      let s ← s.modifyPuddle puddle fun p => { p with next := (s.pools pool).puddlelist e }
      let s := s.modifyPool pool fun p => p.setPuddlelist e (some puddle)
      freePuddles pool e nrofArrays fuel nextPuddle s freed

/-- `sort_puddle_by_nrof_free`. -/
def sortPuddleByNrofFree (s : State) : Option Addr → Option Addr → Option Int
  | some a, some b => do
    let puddleA ← s.memory a
    let puddleB ← s.memory b
    if puddleA.data.nrofFree < puddleB.data.nrofFree then some (-1)
    else if puddleA.data.nrofFree > puddleB.data.nrofFree then some 1
    else some 0
  | _, _ => none

/-- The links between the puddles. -/
def State.puddleLinks (s : State) : Links (Option Addr)
  | some a => (s.memory a).map fun c => c.data.next
  | none => none

def State.setPuddleLinks (s : State) (links : Links (Option Addr)) : State :=
  { s with
    memory := fun a => (s.memory a).map fun c =>
      match links (some a) with
      | some next => { c with data := { c.data with next := next } }
      | none => c }

/-- The sort of a list of puddles, whose end is the null pointer. What the stack holds before the
sort is `stack`. -/
def sortPuddles (stack : Fin 4 → Tape (Option Addr)) (fuel : ℕ) (first : Option Addr) (s : State) :
    Except Fault (Option Addr × State) :=
  match sortLinkedList none stack (sortPuddleByNrofFree s) fuel none first s.puddleLinks with
  | some (first, _, links) => .ok (first, s.setPuddleLinks links)
  | none => .error .endless

/-- The loop of `mempool_free_puddles` that restores the free list. -/
def restoreFreelist (pool : ℕ) (e : Exponent) :
    ℕ → Option Addr → Pointer → State → Except Fault State
  | _, none, _, s => .ok s
  | 0, some _, _, _ => .error .endless
  | fuel+1, some puddle, lastFree, s => do
    let record ← s.load puddle
    if record.data.nrofFree > 0 then do
      let s ←
        if (s.pools pool).freelist e = .endMarker then
          .ok (s.modifyPool pool fun p => p.setFreelist e record.data.firstFree)
        else do s.setNext (← lastFree.addr) record.data.firstFree
      let s ← s.setNext (← record.data.lastFree.addr) .endMarker
      restoreFreelist pool e fuel (← s.load puddle).data.next record.data.lastFree s
    else restoreFreelist pool e fuel record.data.next lastFree s

/-- The body of the outer loop of `mempool_free_puddles`. -/
def freeExponent (stack : Fin 4 → Tape (Option Addr)) (fuel pool : ℕ) (result : State × ℕ)
    (e : Exponent) : Except Fault (State × ℕ) := do
  let (s, freed) := result
  let nrofArrays := (s.pools pool).arrays e
  let puddle := (s.pools pool).puddlelist e
  let s := s.modifyPool pool fun p => p.setPuddlelist e none
  let (s, freed) ← freePuddles pool e nrofArrays fuel puddle s freed
  let (first, s) ← sortPuddles stack fuel ((s.pools pool).puddlelist e) s
  let s := s.modifyPool pool fun p => p.setPuddlelist e first
  let s := s.modifyPool pool fun p => p.setFreelist e .endMarker
  let s ← restoreFreelist pool e fuel ((s.pools pool).puddlelist e) .endMarker s
  return (s, freed)

/-- `mempool_free_puddles`. -/
def mempoolFreePuddles (stack : Fin 4 → Tape (Option Addr)) (fuel : ℕ) (s : State) (pool : ℕ) :
    Except Fault (State × ℕ) :=
  if (s.pools pool).bypasses then .ok (s, 0)
  else (List.finRange 8).foldlM (freeExponent stack fuel pool) (s, 0)

/-- `mempool_reclaim`. -/
def mempoolReclaim (stack : Fin 4 → Tape (Option Addr)) (fuel : ℕ) (s : State) (pool : ℕ) :
    Except Fault (State × ℕ) :=
  if ¬ (s.pools pool).freeable then .ok (s, 0)
  else mempoolFreePuddles stack fuel s pool

/-- A pool and an exponent. -/
abbrev Key := ℕ × Exponent

/-- The key of the records of the puddles. -/
def puddleKey : Key := (poolPuddle, 0)

/-- The state after the pools have been created: `pool_puddle` and the pools of the users. -/
def State.init (expand : ℕ → ℕ) (flags : ℕ → UInt32) : State where
  pools := fun pool =>
    if pool = poolPuddle then mempoolCreate 10 allowFreeing
    else mempoolCreate (expand pool) (flags pool)
  memory := fun _ => none
  deiniting := false

end LibAtrinik.Mempool

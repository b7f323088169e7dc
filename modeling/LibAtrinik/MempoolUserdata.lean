import LibAtrinik.MempoolHistory

namespace LibAtrinik.Mempool

open IntrusiveList BlockLedger

section Code

/-- The data behind a chunk, by the offsets of its bytes. -/
abbrev Userdata := ℕ → UInt8

def Userdata.zero : Userdata := fun _ => 0

/-- What the pools are created with: the sizes of their chunks and their initialisators. What an
initialisator does to the data may depend on anything that has happened, so its effect is given for
each call of an initialisator, by the number of calls before. The puddles have no initialisator. -/
structure Callbacks where
  chunksize : ℕ → ℕ
  initialisator : ℕ → Option (ℕ → Userdata → Userdata)
  puddle : initialisator poolPuddle = none

/-- The number of bytes behind a chunk, `chunksize << e`. -/
def Callbacks.bytes (host : Callbacks) (pool : ℕ) (e : Exponent) : ℕ :=
  host.chunksize pool <<< e.val

/-- The pools with the data in their chunks, and the number of calls of initialisators so far. The
records of the puddles are in the state. -/
structure Store where
  state : State
  userdata : Addr → Userdata
  initialised : ℕ

/-- `xcalloc`, which gives zeroed memory. -/
def Store.xcalloc (s : Store) (block n : ℕ) : Store :=
  { s with
    state := s.state.xcalloc block n
    userdata := fun a => if a.1 = block ∧ a.2 < n then .zero else s.userdata a }

/-- `memset` of the data behind a chunk. -/
def Store.clear (s : Store) (a : Addr) (size : ℕ) : Store :=
  { s with
    userdata := Function.update s.userdata a fun i => if i < size then 0 else s.userdata a i }

def Store.modifyPool (s : Store) (pool : ℕ) (f : Pool → Pool) : Store :=
  { s with state := s.state.modifyPool pool f }

/-- A part of the code that leaves the data alone. -/
def Store.withState (s : Store) (f : State → Except Fault State) : Except Fault Store := do
  let state ← f s.state
  return { s with state := state }

variable (host : Callbacks)

/-- The call of the initialisator, if the pool has one. -/
def Store.initialise (s : Store) (pool : ℕ) (a : Addr) : Store :=
  match host.initialisator pool with
  | none => s
  | some f =>
    { s with
      userdata := Function.update s.userdata a (f s.initialised (s.userdata a))
      initialised := s.initialised+1 }

/-- The loop of `mempool_expand` over the new chunks, of which some are left. -/
def Store.linkChunks (pool : ℕ) : ℕ → Addr → Store → Except Fault Store
  | 0, _, s => .ok s
  | 1, chunk, s => (s.initialise host pool chunk).withState fun s => s.setNext chunk .endMarker
  | n+2, chunk, s => do
    let s ← (s.initialise host pool chunk).withState fun s =>
      s.setNext chunk (.chunk (chunk.1, chunk.2+1))
    Store.linkChunks pool (n+1) (chunk.1, chunk.2+1) s

/-- `mempool_expand`, where `getPuddle` is `mempool_get` of `pool_puddle`. -/
def Store.mempoolExpand (getPuddle : Store → Except Fault (Addr × Store)) (block : ℕ) (s : Store)
    (pool : ℕ) (e : Exponent) : Except Fault Store :=
  if (s.state.pools pool).nrofFree e ≠ 0 then .error .assertion
  else do
    let nrofArrays := (s.state.pools pool).arrays e
    let nrofArrays := if nrofArrays = 0 then 1 else nrofArrays
    let s := s.xcalloc block nrofArrays
    let s := s.modifyPool pool fun p =>
      ((p.setFreelist e (.chunk (block, 0))).setNrofAllocated e
        (p.nrofAllocated e+nrofArrays)).setNrofFree e nrofArrays
    let s ← Store.linkChunks host pool nrofArrays (block, 0) s
    let (p, s) ← getPuddle s
    let s ← s.withState fun s => s.modifyPuddle p fun puddle =>
      { puddle with firstChunk := .chunk (block, 0), next := (s.pools pool).puddlelist e }
    return s.modifyPool pool fun pool => pool.setPuddlelist e (some p)

/-- The end of `mempool_get_chunk`, before the constructor is called. -/
def Store.takeChunk (s : Store) (pool : ℕ) (e : Exponent) : Except Fault (Addr × Store) := do
  let (newObj, state) ← Mempool.takeChunk s.state pool e
  return (newObj, { s with state := state })

/-- `mempool_get_chunk` up to the call of the constructor. -/
def Store.mempoolGetChunk (blocks : List ℕ) (s : Store) (pool : ℕ) (e : Exponent) :
    Except Fault (Addr × Store) :=
  if (s.state.pools pool).bypasses then
    match blocks with
    | [] => .error .unanswered
    | block :: _ => do
      let s := s.xcalloc block 1
      let s := s.modifyPool pool fun p => p.setNrofAllocated e (p.nrofAllocated e+1)
      let s ← s.withState fun s => s.setNext (block, 0) .null
      return ((block, 0), s)
  else if (s.state.pools pool).nrofFree e = 0 then
    match blocks with
    | [] => .error .unanswered
    | block :: blocks => do
      -- A chunk of the new block is taken as the initialisator has left it.
      let s ← Store.mempoolExpand host
        (fun s => Store.mempoolGetChunk blocks s poolPuddle puddleKey.2) block s pool e
      s.takeChunk pool e
  else do
    let head ← ((s.state.pools pool).freelist e).addr
    -- Both parts of what the source clears: the data of a user, and the record of a puddle.
    let s ← (s.clear head (host.bytes pool e)).withState fun s => s.modifyPuddle head fun _ => .zero
    s.takeChunk pool e

end Code

section Erasure

variable (host : Callbacks)

/-- What a call does when the data in the chunks is not looked at. -/
def erase (result : Except Fault (Addr × Store)) : Except Fault (Addr × State) :=
  result.map fun found => (found.1, found.2.state)

/-- Two calls in turn are erased by erasing each of them. -/
theorem bind_erased {α α' β β' : Type} {x : Except Fault α} {y : Except Fault β}
    {f : α → Except Fault α'} {g : β → Except Fault β'} {p : α → β} {q : α' → β'}
    (hx : x.map p = y) (hf : ∀ a, (f a).map q = g (p a)) : (x >>= f).map q = y >>= g := by
  rw [← hx]
  cases x with
  | error fault => rfl
  | ok a => exact hf a

theorem Store.initialise_state (s : Store) (pool : ℕ) (a : Addr) :
    (s.initialise host pool a).state = s.state := by
  unfold Store.initialise
  cases host.initialisator pool <;> rfl

theorem Store.modifyPool_state (s : Store) (pool : ℕ) (f : Pool → Pool) :
    (s.modifyPool pool f).state = s.state.modifyPool pool f := rfl

theorem Store.withState_state (s : Store) (f : State → Except Fault State) :
    (s.withState f).map Store.state = f s.state := by
  unfold Store.withState
  cases f s.state <;> rfl

theorem Store.linkChunks_state (pool n : ℕ) (chunk : Addr) (s : Store) :
    (Store.linkChunks host pool n chunk s).map Store.state =
      Mempool.linkChunks n chunk s.state := by
  fun_induction Store.linkChunks host pool n chunk s with
  | case1 => rfl
  | case2 chunk s =>
    rw [Store.withState_state, Store.initialise_state]
    rfl
  | case3 n chunk s ih =>
    have hstep := Store.withState_state (s.initialise host pool chunk)
      fun s => s.setNext chunk (.chunk (chunk.1, chunk.2+1))
    rw [Store.initialise_state] at hstep
    exact bind_erased hstep ih

theorem Store.takeChunk_state (s : Store) (pool : ℕ) (e : Exponent) :
    erase (s.takeChunk pool e) = Mempool.takeChunk s.state pool e := by
  unfold Store.takeChunk
  cases Mempool.takeChunk s.state pool e <;> rfl

theorem Store.mempoolExpand_state (getPuddle : Store → Except Fault (Addr × Store))
    (getPuddle' : State → Except Fault (Addr × State))
    (hget : ∀ s, erase (getPuddle s) = getPuddle' s.state) (block : ℕ) (s : Store) (pool : ℕ)
    (e : Exponent) :
    (Store.mempoolExpand host getPuddle block s pool e).map Store.state =
      Mempool.mempoolExpand getPuddle' block s.state pool e := by
  unfold Store.mempoolExpand Mempool.mempoolExpand
  by_cases hfree : (s.state.pools pool).nrofFree e ≠ 0
  · rw [if_pos hfree, if_pos hfree]
    rfl
  rw [if_neg hfree, if_neg hfree]
  dsimp only
  apply bind_erased
  · -- the chunks are linked
    rw [Store.linkChunks_state]
    rfl
  intro s₁
  apply bind_erased (hget s₁)
  rintro ⟨p, s₂⟩
  -- and the record is attached
  exact bind_erased (Store.withState_state s₂ _) fun _ => rfl

/-- The data in the chunks has no influence on which chunks are got. -/
theorem Store.mempoolGetChunk_state (blocks : List ℕ) (s : Store) (pool : ℕ) (e : Exponent) :
    erase (Store.mempoolGetChunk host blocks s pool e) =
      Mempool.mempoolGetChunk blocks s.state pool e := by
  induction blocks generalizing s pool e with
  | nil =>
    rw [Store.mempoolGetChunk.eq_def, Mempool.mempoolGetChunk.eq_def]
    by_cases hbypass : (s.state.pools pool).bypasses
    · rw [if_pos hbypass, if_pos hbypass]
      rfl
    rw [if_neg hbypass, if_neg hbypass]
    by_cases hfree : (s.state.pools pool).nrofFree e = 0
    · rw [if_pos hfree, if_pos hfree]
      rfl
    rw [if_neg hfree, if_neg hfree]
    refine bind_erased (p := id) ?_ fun head => ?_
    · cases ((s.state.pools pool).freelist e).addr <;> rfl
    · exact bind_erased (Store.withState_state (s.clear head _) _) fun s =>
        Store.takeChunk_state s pool e
  | cons block blocks ih =>
    rw [Store.mempoolGetChunk.eq_def, Mempool.mempoolGetChunk.eq_def]
    by_cases hbypass : (s.state.pools pool).bypasses
    · rw [if_pos hbypass, if_pos hbypass]
      exact bind_erased (Store.withState_state _ _) fun _ => rfl
    rw [if_neg hbypass, if_neg hbypass]
    by_cases hfree : (s.state.pools pool).nrofFree e = 0
    · -- the record for the new puddle is got with one block less
      rw [if_pos hfree, if_pos hfree]
      have hexpand := Store.mempoolExpand_state host _
        (fun s => Mempool.mempoolGetChunk blocks s poolPuddle 0) (fun s => ih s poolPuddle 0)
        block s pool e
      exact bind_erased hexpand fun s => Store.takeChunk_state s pool e
    rw [if_neg hfree, if_neg hfree]
    refine bind_erased (p := id) ?_ fun head => ?_
    · cases ((s.state.pools pool).freelist e).addr <;> rfl
    · exact bind_erased (Store.withState_state (s.clear head _) _) fun s =>
        Store.takeChunk_state s pool e

end Erasure

end LibAtrinik.Mempool

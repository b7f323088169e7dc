import LibAtrinik.FuelLoop
import LibAtrinik.PathfindingStore

namespace LibAtrinik.Pathfinding

/-! The operations of the index with the probe loop of `pf_hash_slot` as a loop that need not end:
`none` when it has not been left after `fuel` rounds. -/

/-- A round of the loop. -/
def pfProbeRound (context : Context) (state : StateId) (slot : ℕ) : ℕ ⊕ ℕ :=
  let entry := context.hash.getD slot 0
  if entry ≠ 0 ∧ (context.node (entry-1)).state ≠ state then
    .inl ((slot+1) &&& (context.hashCapacity-1))
  else .inr slot

def pfHashSlotLoop (fuel : ℕ) (context : Context) (state : StateId) : Option ℕ :=
  FuelLoop.run (pfProbeRound context state) fuel
    ((pfHashState state).toNat &&& (context.hashCapacity-1))

def pfRehashLoop (fuel : ℕ) (context : Context) : ℕ → ℕ → Option Context
  | 0, _ => some context
  | remaining+1, i => do
    let slot ← pfHashSlotLoop fuel context (context.node i).state
    pfRehashLoop fuel { context with hash := context.hash.set slot (i+1) } remaining (i+1)

def pfRebuildHashLoop (fuel : ℕ) (context : Context) (capacity : ℕ) : Option (Bool × Context) :=
  if capacity < 2 ∨ (capacity &&& (capacity-1)) ≠ 0 then some (false, context)
  else match pfMultiplySize capacity sizeofSize with
  | none => some (false, context)
  | some _ =>
    let granted := context.memory 0
    let context := { context with memory := fun n => context.memory (n+1) }
    if granted then do
      let context ← pfRehashLoop fuel
        { context with hash := List.replicate capacity 0, hashCapacity := capacity }
        context.nodeCount 0
      return (true, context)
    else some (false, context)

def pfPrepareHashLoop (fuel : ℕ) (context : Context) : Option (Bool × Context) :=
  if context.hashCapacity = 0 then pfRebuildHashLoop fuel context 64
  else if context.nodeCount+1 ≤ context.hashCapacity/2 then some (true, context)
  else if context.hashCapacity > sizeMax/2 then some (false, context)
  else pfRebuildHashLoop fuel context (context.hashCapacity*2)

def pfFindNodeLoop (fuel : ℕ) (context : Context) (state : StateId) : Option (Option ℕ) :=
  if context.hashCapacity = 0 then some none
  else do
    let slot ← pfHashSlotLoop fuel context state
    let entry := context.hash.getD slot 0
    return if entry = 0 then none else some (entry-1)

def pfAddNodeLoop (fuel : ℕ) (context : Context) (node : PfNode) :
    Option (Option ℕ × Context) := do
  let prepared ← pfPrepareHashLoop fuel context
  if prepared.1 then
    let reserved := pfReserveNode prepared.2
    if reserved.1 then
      let context := reserved.2
      let index := context.nodeCount
      let context := { context.setNode index node with nodeCount := index+1 }
      let slot ← pfHashSlotLoop fuel context node.state
      return (some index, { context with hash := context.hash.set slot (index+1) })
    else return (none, reserved.2)
  else return (none, prepared.2)

theorem pfProbeRun_eq (c : Context) (k : ℕ) (hk : c.hashCapacity = 2^(k+1)) (s : StateId)
    (d : ℕ) (he : LinearProbing.EndsAt c.hashCapacity homeSlot (fun i => (c.node i).state)
      c.slot s d) (fuel e : ℕ) (hed : e ≤ d) (hf : d < e+fuel) :
    FuelLoop.run (pfProbeRound c s) fuel ((homeSlot s+e)%c.hashCapacity) =
      some ((homeSlot s+d)%c.hashCapacity) := by
  induction fuel generalizing e with
  | zero => omega
  | succ fuel ih =>
    rcases Nat.eq_or_lt_of_le hed with rfl | hlt
    · apply FuelLoop.run_leave
      unfold pfProbeRound
      rw [if_neg]
      rintro ⟨h0, hne⟩
      apply hne
      apply he.stop
      rw [slot_eq_some]
      omega
    · obtain ⟨i, hi, hne⟩ := he.pass e hlt
      rw [slot_eq_some] at hi
      have hnext : ((homeSlot s+e)%c.hashCapacity+1) &&& (c.hashCapacity-1) =
          (homeSlot s+(e+1))%c.hashCapacity := by
        rw [hk, and_pred_power, Nat.mod_add_mod, Nat.add_assoc]
      have hround : pfProbeRound c s ((homeSlot s+e)%c.hashCapacity) =
          .inl ((homeSlot s+(e+1))%c.hashCapacity) := by
        unfold pfProbeRound
        rw [if_pos (by rw [hi]; exact ⟨by omega, hne⟩), hnext]
      rw [FuelLoop.run_continue _ _ _ _ hround]
      exact ih (e+1) hlt (by omega)

theorem HashHolds.loop_ends {c : Context} {m k : ℕ} (hh : HashHolds c m)
    (hk : c.hashCapacity = 2^(k+1)) (hm : m < c.hashCapacity) (s : StateId) (fuel : ℕ)
    (hf : c.hashCapacity ≤ fuel) : pfHashSlotLoop fuel c s = some (pfHashSlot c s) := by
  obtain ⟨d, he⟩ := LinearProbing.Holds.exists_endsAt hh (by rwa [Finset.card_range]) s
  have hlt := he.lt
  have hrun := pfProbeRun_eq c k hk s d he fuel 0 (Nat.zero_le d) (by omega)
  rw [Nat.add_zero (homeSlot s)] at hrun
  have hhome : (pfHashState s).toNat &&& (c.hashCapacity-1) = homeSlot s%c.hashCapacity := by
    rw [hk, and_pred_power, homeSlot]
  rw [pfHashSlotLoop, hhome, hrun, pfHashSlot_eq c k hk s d he]

/-- The loop of `pf_rebuild_hash`, along the nodes that are entered. -/
theorem pfRehashLoop_eq (fuel : ℕ) (c : Context) (k : ℕ) (hk : c.hashCapacity = 2^(k+1))
    (hlen : c.hash.length = c.hashCapacity) (hf : c.hashCapacity ≤ fuel) (remaining i : ℕ)
    (hm : i+remaining ≤ c.hashCapacity) (hd : DistinctStates c (i+remaining))
    (hh : HashHolds c i) :
    pfRehashLoop fuel c remaining i = some (pfRehash c remaining i) := by
  induction remaining generalizing c i with
  | zero => rfl
  | succ remaining ih =>
    let c' : Context := { c with hash := c.hash.set (pfHashSlot c (c.node i).state) (i+1) }
    have henter : HashHolds c' (i+1) := hh.enter k hk hlen (by omega)
      (fun a ha b hb => hd a (by omega) b (by omega))
    have hsum : i+1+remaining = i+(remaining+1) := by omega
    rw [pfRehashLoop, hh.loop_ends hk (by omega) _ fuel hf, pfRehash]
    exact ih c' hk (by simpa [c'] using hlen) hf (i+1)
      (by show i+1+remaining ≤ c.hashCapacity; omega) (by rw [hsum]; exact hd) henter

theorem pfRebuildHashLoop_eq (fuel : ℕ) (c : Context) (capacity k : ℕ) (hcap : capacity = 2^(k+1))
    (hf : capacity ≤ fuel) (hn : c.nodeCount ≤ capacity) (hd : DistinctStates c c.nodeCount) :
    pfRebuildHashLoop fuel c capacity = some (pfRebuildHash c capacity) := by
  unfold pfRebuildHashLoop pfRebuildHash
  split
  · rfl
  · cases pfMultiplySize capacity sizeofSize with
    | none => rfl
    | some bytes =>
      dsimp only
      split
      · let c' : Context := { c with
          memory := fun n => c.memory (n+1)
          hash := List.replicate capacity 0
          hashCapacity := capacity }
        have hrehash : pfRehashLoop fuel c' c.nodeCount 0 = some (pfRehash c' c.nodeCount 0) := by
          apply pfRehashLoop_eq fuel c' k hcap (by simp [c']) hf c.nodeCount 0
          · rw [Nat.zero_add]
            exact hn
          · rw [Nat.zero_add]
            exact hd
          · exact hashHolds_cleared c' capacity rfl
        exact Option.bind_eq_some_iff.mpr ⟨_, hrehash, rfl⟩
      · rfl

theorem pfPrepareHashLoop_eq (fuel : ℕ) (c : Context) (hi : Stored c)
    (hf : 64+2*c.hashCapacity ≤ fuel) :
    pfPrepareHashLoop fuel c = some (pfPrepareHash c) := by
  have hhalf := hi.half
  unfold pfPrepareHashLoop pfPrepareHash
  split_ifs with h0 hroom hmax
  · exact pfRebuildHashLoop_eq fuel c 64 5 rfl (by omega) (by omega) hi.distinct
  · rfl
  · rfl
  · obtain ⟨k, hk⟩ := hi.shape.power.resolve_left h0
    exact pfRebuildHashLoop_eq fuel c _ (k+1) (by rw [hk, ← Nat.pow_succ]) (by omega) (by omega)
      hi.distinct

theorem pfFindNodeLoop_eq (fuel : ℕ) (c : Context) (hi : Stored c) (hf : c.hashCapacity ≤ fuel)
    (s : StateId) : pfFindNodeLoop fuel c s = some (pfFindNode c s) := by
  have hhalf := hi.half
  unfold pfFindNodeLoop pfFindNode
  split_ifs with h0
  · rfl
  · obtain ⟨k, hk⟩ := hi.shape.power.resolve_left h0
    rw [hi.holds.loop_ends hk (by omega) s fuel hf]
    rfl

/-- The table that a new node is entered into still holds the nodes before it. -/
theorem Stored.reserved {c : Context} (hi : Stored c) (hp : (pfPrepareHash c).1 = true)
    (hr : (pfReserveNode (pfPrepareHash c).2).1 = true) (node : PfNode) (count : ℕ) :
    let c' := (pfReserveNode (pfPrepareHash c).2).2
    c'.nodeCount = c.nodeCount ∧ (∃ k, c'.hashCapacity = 2^(k+1)) ∧
      c.nodeCount < c'.hashCapacity ∧
      HashHolds { c'.setNode c.nodeCount node with nodeCount := count } c.nodeCount := by
  have hs := hi.shape
  rcases pfPrepareHash_spec c hi with ⟨m, he⟩ | ⟨m, hash, cap, he, hl, ⟨k, hk⟩, hroom, hh⟩
  · rw [he] at hp
    cases hp
  · let c1 : Context := { c with memory := m, hash := hash, hashCapacity := cap }
    have hs1 : Shape c1 := ⟨hs.nodes, hl, Or.inr ⟨k, hk⟩, hs.heap, hs.path, hs.reachable, hs.bytes⟩
    rw [he] at hr ⊢
    rcases pfReserveNode_spec c1 hs1 hi.count_le with ⟨m', he'⟩ |
      ⟨m', nodes, ncap, he', hnl, hlt, hkeep, hbytes⟩
    · have hfail : (pfReserveNode c1).1 = true := hr
      rw [he'] at hfail
      cases hfail
    · dsimp only
      rw [show pfReserveNode { c with memory := m, hash := hash, hashCapacity := cap } = _ from he']
      refine ⟨rfl, ⟨k, hk⟩, by show c.nodeCount < cap; omega, ?_⟩
      apply hh.congr (nodes.set c.nodeCount node)
      intro i hlt
      have hk' : nodes.getD i default = c.node i := hkeep i hlt
      show _ = (c.node i).state
      rw [← hk']
      simp [Nat.ne_of_gt hlt]

/-- All probe loops of `pf_add_node` end: those of a rebuilt table, and the one that enters the
node. -/
theorem pfAddNodeLoop_eq (c : Context) (hi : Stored c) (node : PfNode) :
    ∃ fuel, pfAddNodeLoop fuel c node = some (pfAddNode c node) := by
  refine ⟨64+2*c.hashCapacity+(pfReserveNode (pfPrepareHash c).2).2.hashCapacity, ?_⟩
  rw [pfAddNodeLoop, pfPrepareHashLoop_eq _ c hi (by omega), Option.bind_eq_bind, Option.bind_some,
    pfAddNode]
  by_cases hp : (pfPrepareHash c).1 = true
  · rw [if_pos hp, if_pos hp]
    by_cases hr : (pfReserveNode (pfPrepareHash c).2).1 = true
    · obtain ⟨hcount, ⟨k, hk⟩, hroom, hh⟩ := hi.reserved hp hr node (c.nodeCount+1)
      simp only [if_pos hr, hcount]
      exact Option.bind_eq_some_iff.mpr
        ⟨_, hh.loop_ends hk hroom node.state _ (Nat.le_add_left _ _), rfl⟩
    · simp only [if_neg hr]
      rfl
  · rw [if_neg hp, if_neg hp]
    rfl

/-- The contexts that a created one becomes in calls of `pf_reset`, of `pf_add_node` for a state
that no node has, and of `pf_find_node`, which changes nothing. The answers of the allocator are
those of the created context. -/
inductive IndexRun : Context → Prop where
  | created (memory : ℕ → Bool) : IndexRun { memory := memory }
  | reset {c : Context} (h : IndexRun c) (options : Options) : IndexRun (pfReset c options)
  | add {c : Context} (h : IndexRun c) (node : PfNode)
      (absent : ∀ i < c.nodeCount, (c.node i).state ≠ node.state) : IndexRun (pfAddNode c node).2

theorem stored_created (memory : ℕ → Bool) : Stored { memory := memory } where
  shape := ⟨rfl, rfl, Or.inl rfl, rfl, rfl, rfl, Nat.zero_le _⟩
  count_le := Nat.le_refl _
  half := Nat.le_refl _
  distinct i h := absurd h (Nat.not_lt_zero i)
  holds := hashHolds_cleared _ 0 rfl

theorem Stored.add {c : Context} (hi : Stored c) (node : PfNode)
    (absent : ∀ i < c.nodeCount, (c.node i).state ≠ node.state) :
    Stored (pfAddNode c node).2 := by
  rcases pfAddNode_stored c hi node absent with
    ⟨m, hash, cap, he, hs⟩ | ⟨m, hash, cap, nodes, ncap, he, hs, _, _⟩
  · rw [he]
    exact hs
  · rw [he]
    exact hs

theorem IndexRun.stored {c : Context} (h : IndexRun c) : Stored c := by
  induction h with
  | created memory => exact stored_created memory
  | reset h options ih => exact ih.shape.reset options
  | add h node absent ih => exact ih.add node absent

/-- At least half of the slots are empty. -/
theorem Stored.half_empty {c : Context} (hi : Stored c) :
    c.hashCapacity ≤
      2*((Finset.range c.hashCapacity).filter fun j => c.hash.getD j 0 = 0).card := by
  have hhalf := hi.half
  have hempty := LinearProbing.Holds.card_empty_ge hi.holds
  rw [Finset.card_range] at hempty
  simp only [slot_eq_none] at hempty
  omega

/-- In every run the index finds exactly the nodes that are stored, the table is a power of two
that is at least half empty, and every probe loop ends with the slot that the operations use. -/
theorem index_of_run {c : Context} (h : IndexRun c) :
    (∀ s i, pfFindNode c s = some i ↔ i < c.nodeCount ∧ (c.node i).state = s) ∧
    (∀ s, pfFindNode c s = none ↔ ¬ ∃ i < c.nodeCount, (c.node i).state = s) ∧
    (c.hashCapacity = 0 ∨ ∃ k, c.hashCapacity = 2^k) ∧
    c.hashCapacity ≤
      2*((Finset.range c.hashCapacity).filter fun j => c.hash.getD j 0 = 0).card ∧
    (∀ s, ∃ fuel, pfFindNodeLoop fuel c s = some (pfFindNode c s)) ∧
    ∀ node, (∀ i < c.nodeCount, (c.node i).state ≠ node.state) →
      ∃ fuel, pfAddNodeLoop fuel c node = some (pfAddNode c node) := by
  have hi := h.stored
  refine ⟨hi.find_iff, hi.find_none_iff, ?_, hi.half_empty, ?_,
    fun node _ => pfAddNodeLoop_eq c hi node⟩
  · exact hi.shape.power.imp_right fun ⟨k, hk⟩ => ⟨k+1, hk⟩
  · exact fun s => ⟨c.hashCapacity, pfFindNodeLoop_eq _ c hi (Nat.le_refl _) s⟩

/-- A run in which the second request for memory is refused after the table has grown, so that the
state zero is entered on the second attempt only, and is gone after a reset. -/
theorem index_of_run_refused :
    let created : Context := { memory := fun n => n ≠ 1 }
    let refused := (pfAddNode created { state := 0 }).2
    let added := (pfAddNode refused { state := 0 }).2
    let reset := pfReset added { algorithm := .astar }
    (pfAddNode created { state := 0 }).1 = none ∧ refused.hashCapacity = 64 ∧
      (pfFindNode added 0 = some 0 ↔ 0 < added.nodeCount ∧ (added.node 0).state = 0) ∧
      (pfFindNode reset 0 = none ↔ ¬ ∃ i < reset.nodeCount, (reset.node i).state = 0) := by
  intro created refused added reset
  have hcreated : IndexRun created := .created _
  have hrefused : IndexRun refused :=
    hcreated.add _ fun i h => absurd h (Nat.not_lt_zero i)
  have hcount : refused.nodeCount = 0 := by decide
  have hadded : IndexRun added :=
    hrefused.add _ fun i h => absurd (hcount ▸ h) (Nat.not_lt_zero i)
  exact ⟨by decide, by decide, (index_of_run hadded).1 0 0,
    (index_of_run (hadded.reset _)).2.1 0⟩

end LibAtrinik.Pathfinding

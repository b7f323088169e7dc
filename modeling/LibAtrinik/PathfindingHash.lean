import Mathlib.Data.Nat.Bitwise
import LibAtrinik.LinearProbing
import LibAtrinik.PathfindingTable

/-! The state index of the pathfinding core: the probe loop of `pf_hash_slot` ends where linear
probing says, so `pf_find_node` looks a state up among the nodes and `pf_add_node` appends one.
Every statement allows the allocator to refuse any request. -/
namespace LibAtrinik.Pathfinding

/-- The lists are as long as the capacities say, the hash capacity is a power of two, and the
size of the node array fits a `size_t`.
This is all that an operation expects of the context that it is given. -/
structure Shape (c : Context) : Prop where
  nodes : c.nodes.length = c.nodeCapacity
  hash : c.hash.length = c.hashCapacity
  power : c.hashCapacity = 0 ∨ ∃ k, c.hashCapacity = 2^(k+1)
  heap : c.heap.length = c.heapCapacity
  path : c.path.length = c.pathCapacity
  reachable : c.reachable.length = c.reachableCapacity
  bytes : c.nodeCapacity*sizeofPfNode ≤ sizeMax

/-- The node that slot `j` of the hash table refers to. -/
def Context.slot (c : Context) (j : ℕ) : Option ℕ :=
  if c.hash.getD j 0 = 0 then none else some (c.hash.getD j 0-1)

def homeSlot (state : StateId) : ℕ := (pfHashState state).toNat

/-- The hash table refers to the first `m` nodes, each in a place where probing finds it. -/
def HashHolds (c : Context) (m : ℕ) : Prop :=
  LinearProbing.Holds c.hashCapacity homeSlot (fun i => (c.node i).state) c.slot (Finset.range m)

/-- No two of the first `m` nodes have the same state. -/
def DistinctStates (c : Context) (m : ℕ) : Prop :=
  ∀ i < m, ∀ j < m, (c.node i).state = (c.node j).state → i = j

/-- What holds of the node storage throughout an operation, whatever the nodes are. -/
structure Stored (c : Context) : Prop where
  shape : Shape c
  count_le : c.nodeCount ≤ c.nodeCapacity
  half : 2*c.nodeCount ≤ c.hashCapacity
  distinct : DistinctStates c c.nodeCount
  holds : HashHolds c c.nodeCount

/-- What holds of the node storage throughout an operation. -/
structure Indexed (c : Context) : Prop where
  shape : Shape c
  count_le : c.nodeCount ≤ c.nodeCapacity
  half : 2*c.nodeCount ≤ c.hashCapacity
  distinct : DistinctStates c c.nodeCount
  sequence : ∀ i < c.nodeCount, (c.node i).sequence = i
  holds : HashHolds c c.nodeCount

theorem Indexed.stored {c : Context} (hi : Indexed c) : Stored c :=
  ⟨hi.shape, hi.count_le, hi.half, hi.distinct, hi.holds⟩

theorem slot_eq_none (c : Context) (j : ℕ) : c.slot j = none ↔ c.hash.getD j 0 = 0 := by
  unfold Context.slot
  by_cases h : c.hash.getD j 0 = 0
  · rw [if_pos h]
    exact iff_of_true rfl h
  · rw [if_neg h]
    exact iff_of_false (Option.some_ne_none _) h

theorem slot_eq_some (c : Context) (j i : ℕ) : c.slot j = some i ↔ c.hash.getD j 0 = i+1 := by
  unfold Context.slot
  split_ifs with h
  · rw [h]
    simp
  · simp only [Option.some.injEq]
    omega

theorem slot_set (c : Context) (j i : ℕ) (hj : j < c.hash.length) :
    ({ c with hash := c.hash.set j (i+1) } : Context).slot = Function.update c.slot j (some i) := by
  funext j'
  by_cases hjj : j' = j
  · subst hjj
    rw [Function.update_self, slot_eq_some]
    simp [hj]
  · rw [Function.update_of_ne hjj]
    simp [Context.slot, Ne.symm hjj]

theorem and_pred_power (n k : ℕ) : n &&& (2^(k+1)-1) = n%2^(k+1) :=
  Nat.and_two_pow_sub_one_eq_mod n (k+1)

/-- The probe loop stops exactly where linear probing ends. -/
theorem pfHashProbe_eq (c : Context) (k : ℕ) (hk : c.hashCapacity = 2^(k+1)) (s : StateId)
    (d : ℕ) (he : LinearProbing.EndsAt c.hashCapacity homeSlot (fun i => (c.node i).state)
      c.slot s d) (fuel e : ℕ) (hed : e ≤ d) (hf : d ≤ e+fuel) :
    pfHashProbe c s fuel ((homeSlot s+e)%c.hashCapacity) = (homeSlot s+d)%c.hashCapacity := by
  induction fuel generalizing e with
  | zero => rw [pfHashProbe, show e = d by omega]
  | succ fuel ih =>
    unfold pfHashProbe
    rcases Nat.eq_or_lt_of_le hed with rfl | hlt
    · rw [if_neg]
      rintro ⟨h0, hne⟩
      apply hne
      apply he.stop
      rw [slot_eq_some]
      omega
    · obtain ⟨i, hi, hne⟩ := he.pass e hlt
      rw [slot_eq_some] at hi
      have hnext : ((homeSlot s+e)%c.hashCapacity+1) &&& (c.hashCapacity-1) =
          (homeSlot s+(e+1))%c.hashCapacity := by
        rw [hk, and_pred_power, Nat.mod_add_mod, Nat.add_assoc]
      rw [if_pos (by rw [hi]; exact ⟨by omega, hne⟩), hnext]
      exact ih (e+1) hlt (by omega)

theorem pfHashSlot_eq (c : Context) (k : ℕ) (hk : c.hashCapacity = 2^(k+1)) (s : StateId)
    (d : ℕ) (he : LinearProbing.EndsAt c.hashCapacity homeSlot (fun i => (c.node i).state)
      c.slot s d) : pfHashSlot c s = (homeSlot s+d)%c.hashCapacity := by
  have h := pfHashProbe_eq c k hk s d he c.hashCapacity 0 (by omega) (by have := he.lt; omega)
  rw [← h, pfHashSlot, Nat.add_zero]
  congr 1
  rw [hk, and_pred_power]
  rfl

/-- The contents of the hash table depend on the states of the nodes only. -/
theorem HashHolds.congr {c : Context} {m : ℕ} (hh : HashHolds c m) (nodes : List PfNode)
    (hs : ∀ i < m, (nodes.getD i default).state = (c.node i).state) :
    HashHolds { c with nodes := nodes } m := by
  refine ⟨hh.sound, hh.unique, ?_⟩
  intro i hi
  have hreach := hh.reach i hi
  have hst : (({ c with nodes := nodes } : Context).node i).state = (c.node i).state :=
    hs i (Finset.mem_range.mp hi)
  rw [hst]
  exact hreach

/-- A cleared table holds no node. -/
theorem hashHolds_cleared (c : Context) (n : ℕ) (hc : c.hash = List.replicate n 0) :
    HashHolds c 0 := by
  have hslot : c.slot = fun _ => none := by
    funext j
    rw [slot_eq_none, hc, List.getD_eq_getElem?_getD, List.getElem?_replicate]
    split_ifs <;> rfl
  unfold HashHolds
  rw [hslot]
  exact LinearProbing.holds_empty _ _ _

/-- The counts are zero and the table is cleared, whatever the arrays still hold. -/
theorem Shape.reset {c : Context} (hs : Shape c) (options : Options) :
    Stored (pfReset c options) where
  shape := ⟨hs.1, List.length_replicate.trans hs.hash, hs.3, hs.4, hs.5, hs.6, hs.7⟩
  count_le := Nat.zero_le _
  half := Nat.zero_le _
  distinct i h := absurd h (Nat.not_lt_zero i)
  holds := hashHolds_cleared _ _ rfl

/-- Entering node `m` at the slot that the probe loop finds. -/
theorem HashHolds.enter {c : Context} {m : ℕ} (hh : HashHolds c m) (k : ℕ)
    (hk : c.hashCapacity = 2^(k+1)) (hlen : c.hash.length = c.hashCapacity)
    (hm : m < c.hashCapacity) (hd : DistinctStates c (m+1)) :
    HashHolds { c with hash := c.hash.set (pfHashSlot c (c.node m).state) (m+1) } (m+1) := by
  have hcard : (Finset.range m).card < c.hashCapacity := by rwa [Finset.card_range]
  obtain ⟨d, he⟩ := LinearProbing.Holds.exists_endsAt hh hcard (c.node m).state
  have hpos : 0 < c.hashCapacity := by omega
  have habsent : ∀ i ∈ Finset.range m, (c.node i).state ≠ (c.node m).state := by
    intro i hi hs
    have hlt := Finset.mem_range.mp hi
    have := hd i (by omega) m (by omega) hs
    omega
  have hins := LinearProbing.Holds.insert hh m d he Finset.notMem_range_self habsent
  rw [← pfHashSlot_eq c k hk _ d he] at hins
  unfold HashHolds
  rw [slot_set c _ m (by rw [hlen, pfHashSlot_eq c k hk _ d he]; exact Nat.mod_lt _ hpos)]
  rwa [Finset.range_add_one]

/-- The loop of `pf_rebuild_hash` enters the remaining nodes one after the other. -/
theorem pfRehash_holds (c : Context) (k : ℕ) (hk : c.hashCapacity = 2^(k+1))
    (hlen : c.hash.length = c.hashCapacity) (remaining i : ℕ)
    (hm : i+remaining ≤ c.hashCapacity) (hd : DistinctStates c (i+remaining))
    (hh : HashHolds c i) :
    ∃ hash, pfRehash c remaining i = { c with hash := hash } ∧ hash.length = c.hashCapacity ∧
      HashHolds { c with hash := hash } (i+remaining) := by
  induction remaining generalizing c i with
  | zero => exact ⟨c.hash, rfl, hlen, hh⟩
  | succ remaining ih =>
    let c' : Context := { c with hash := c.hash.set (pfHashSlot c (c.node i).state) (i+1) }
    have henter : HashHolds c' (i+1) := hh.enter k hk hlen (by omega)
      (fun a ha b hb => hd a (by omega) b (by omega))
    have hsum : i+1+remaining = i+(remaining+1) := by omega
    obtain ⟨hash, he, hl, hf⟩ := ih c' hk (by simpa [c'] using hlen) (i+1)
      (by show i+1+remaining ≤ c.hashCapacity; omega)
      (by rw [hsum]; exact hd) henter
    refine ⟨hash, by rw [pfRehash]; exact he, hl, ?_⟩
    rw [← hsum]
    exact hf

/-- `pf_rebuild_hash` either leaves the table or replaces it by one that holds all nodes. -/
theorem pfRebuildHash_spec (c : Context) (capacity k : ℕ) (hcap : capacity = 2^(k+1))
    (hn : c.nodeCount ≤ capacity) (hd : DistinctStates c c.nodeCount) :
    (∃ memory, pfRebuildHash c capacity = (false, { c with memory := memory })) ∨
    ∃ memory hash, pfRebuildHash c capacity =
        (true, { c with memory := memory, hash := hash, hashCapacity := capacity }) ∧
      hash.length = capacity ∧
      HashHolds { c with memory := memory, hash := hash, hashCapacity := capacity }
        c.nodeCount := by
  have h2 : 2 ≤ capacity := by
    rw [hcap, Nat.pow_succ]
    have := Nat.two_pow_pos k
    omega
  have hand : capacity &&& (capacity-1) = 0 := by
    rw [hcap, and_pred_power, Nat.mod_self]
  unfold pfRebuildHash
  rw [if_neg (by rw [hand]; omega)]
  cases pfMultiplySize capacity sizeofSize with
  | none => exact Or.inl ⟨c.memory, rfl⟩
  | some bytes =>
    cases hmem : c.memory 0 with
    | false =>
      exact Or.inl ⟨fun n => c.memory (n+1), by simp⟩
    | true =>
      let c' : Context := { c with
        memory := fun n => c.memory (n+1)
        hash := List.replicate capacity 0
        hashCapacity := capacity }
      have hempty : HashHolds c' 0 := hashHolds_cleared c' capacity rfl
      obtain ⟨hash, he, hl, hf⟩ := pfRehash_holds c' k hcap (by simp [c']) c.nodeCount 0
        (by rw [Nat.zero_add]; exact hn) (by rw [Nat.zero_add]; exact hd) hempty
      refine Or.inr ⟨fun n => c.memory (n+1), hash, ?_, hl, ?_⟩
      · simp only [if_true]
        exact congrArg (Prod.mk true) he
      · rw [Nat.zero_add] at hf
        exact hf

/-- After `pf_prepare_hash` there is room for one more node in the table. -/
theorem pfPrepareHash_spec (c : Context) (hi : Stored c) :
    (∃ memory, pfPrepareHash c = (false, { c with memory := memory })) ∨
    ∃ memory hash hashCapacity, pfPrepareHash c =
        (true, { c with memory := memory, hash := hash, hashCapacity := hashCapacity }) ∧
      hash.length = hashCapacity ∧ (∃ k, hashCapacity = 2^(k+1)) ∧
      2*(c.nodeCount+1) ≤ hashCapacity ∧
      HashHolds { c with memory := memory, hash := hash, hashCapacity := hashCapacity }
        c.nodeCount := by
  have hhalf := hi.half
  unfold pfPrepareHash
  split_ifs with h0 hroom hmax
  · rcases pfRebuildHash_spec c 64 5 rfl (by omega) hi.distinct with h | ⟨m, hash, he, hl, hh⟩
    · exact Or.inl h
    · exact Or.inr ⟨m, hash, 64, he, hl, ⟨5, rfl⟩, by omega, hh⟩
  · obtain ⟨k, hk⟩ := hi.shape.power.resolve_left h0
    exact Or.inr ⟨c.memory, c.hash, c.hashCapacity, rfl, hi.shape.hash, ⟨k, hk⟩, by omega,
      hi.holds⟩
  · exact Or.inl ⟨c.memory, rfl⟩
  · obtain ⟨k, hk⟩ := hi.shape.power.resolve_left h0
    have hk2 : c.hashCapacity*2 = 2^(k+1+1) := by rw [hk, ← Nat.pow_succ]
    have h2 : 2 ≤ c.hashCapacity := by
      rw [hk, Nat.pow_succ]
      have := Nat.two_pow_pos k
      omega
    rcases pfRebuildHash_spec c (c.hashCapacity*2) (k+1) hk2 (by omega) hi.distinct with
      h | ⟨m, hash, he, hl, hh⟩
    · exact Or.inl h
    · exact Or.inr ⟨m, hash, c.hashCapacity*2, he, hl, ⟨k+1, hk2⟩, by omega, hh⟩

end LibAtrinik.Pathfinding

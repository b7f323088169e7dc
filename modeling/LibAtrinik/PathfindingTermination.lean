import LibAtrinik.PathfindingComplete

namespace LibAtrinik.Pathfinding

open SearchForest LabelledWalk

variable {a : PureAdapter} {algorithm : Algorithm} {start : StateId} {nodes : List PfNode}

/-- The states hold every state that can be reached. -/
def PureAdapter.Covers (a : PureAdapter) (start : StateId) (states : Finset StateId) : Prop :=
  ∀ ts s, a.Walk start ts s → s ∈ states

/-- Only states that can be reached become nodes. -/
theorem Coherent.length_le_card (h : Coherent a algorithm start nodes)
    (states : Finset StateId) (hcovers : a.Covers start states) :
    nodes.length ≤ states.card := by
  have hmaps : ∀ i ∈ Finset.range nodes.length, (nodeAt nodes i).state ∈ states := by
    intro i hi
    have hlt := Finset.mem_range.mp hi
    obtain ⟨ts, hwalk⟩ := h.reachable i hlt
    exact hcovers ts _ hwalk
  have hcard := Finset.card_le_card_of_injOn (fun i => (nodeAt nodes i).state) hmaps
    (fun i hi j hj hij => h.distinct i (Finset.mem_range.mp hi) j (Finset.mem_range.mp hj) hij)
  rwa [Finset.card_range] at hcard

/-- The part of the bound that no round can use up, because its states cannot be reached. -/
def unreachable (states : Finset StateId) : ℕ := (2^64-states.card)*2^65

theorem Coherent.unreachable_le (h : Coherent a algorithm start nodes)
    (states : Finset StateId) (hcovers : a.Covers start states) :
    unreachable states ≤ remaining nodes := by
  have hlen := h.length_le_card states hcovers
  have hroom : 2^64-states.card ≤ 2^64-nodes.length := by omega
  exact (Nat.mul_le_mul_right _ hroom).trans (Nat.le_add_left _ _)

theorem states_card_le (states : Finset StateId) : states.card ≤ 2^64 := by
  have h := nodup_states_length states.toList states.nodup_toList
  rwa [Finset.length_toList] at h

/-- The rounds of a search are bounded by the states that can be reached and the costs they can
have, whatever the order in which nodes are popped. -/
theorem finishCall_terminates (a : PureAdapter) (options : Options) (start : StateId)
    (states : Finset StateId) (hcovers : a.Covers start states) (polls fuel : ℕ)
    (hfuel : states.card*2^65 ≤ fuel) :
    ∃ call, a.finishCall options start fuel polls = some call := by
  obtain ⟨hnodes, hstop, hbest⟩ := start_nodes a options polls start
  have hstart : Coherent a options.algorithm start
      (Table.start a.toAdapter options polls start).1.nodes := by
    rw [hnodes]
    exact coherent_singleton a options.algorithm start
  have hpos : 1 ≤ states.card := by
    have hlen := hstart.length_le_card states hcovers
    have := hstart.nonempty
    omega
  have hmeasure : remaining (Table.start a.toAdapter options polls start).1.nodes-
      unreachable states < fuel := by
    have hone : remaining (Table.start a.toAdapter options polls start).1.nodes =
        1+(2^64-1)*2^65 := by
      rw [hnodes]
      rfl
    have hmax := states_card_le states
    rw [hone, unreachable]
    omega
  let I (s : Table × ℕ) : Prop :=
    Coherent a options.algorithm start s.1.nodes ∧ s.1.stop = none ∧ BestBelow s.1
  refine FuelLoop.run_terminates (a.searchRound options) I
    (fun s => remaining s.1.nodes-unreachable states) ?_ fuel _ ⟨hstart, hstop, hbest⟩ hmeasure
  intro s next hI hnext
  obtain ⟨hI', hlt⟩ := searchRound_lowers a options start s next hI hnext
  have hle := hI'.1.unreachable_le states hcovers
  exact ⟨hI', by omega⟩

/-- A search comes back when its loop may run for as many rounds as the reachable states can be
improved. -/
theorem search_loop_ends (a : PureAdapter) (start : StateId) (states : Finset StateId)
    (hcovers : a.Covers start states) (c : Context) (hc : LeftBehind c)
    (options : Option Options) (polls fuel : ℕ) (hfuel : states.card*2^65 ≤ fuel) :
    ∃ r, atrinikPfSearch fuel (some c) (some a.toAdapter) start options polls = some r := by
  have hsearch : ∃ x, Table.search fuel (some a.toAdapter) start
      (options.getD atrinikPfOptionsInit) polls = some x := by
    rw [search_toAdapter]
    split_ifs
    · obtain ⟨call, hcall⟩ := finishCall_terminates a (options.getD atrinikPfOptionsInit) start
        states hcovers polls fuel hfuel
      obtain ⟨r, p, hr⟩ := finishCall_isSome a _ start fuel polls call hcall
      exact ⟨(r, p), by rw [hcall]; exact hr⟩
    · exact ⟨_, rfl⟩
  obtain ⟨x, hx⟩ := hsearch
  obtain ⟨out, hout, hend⟩ := atrinikPfSearch_ends fuel c hc.shape (some a.toAdapter) start options
    polls
  rw [hx] at hend
  rw [hout]
  exact hend.exists_result

/-- States 1 and 2 form a cycle without cost, state 1 has a self loop, and the way to state 3 over
state 1 is longer than the one over state 2. -/
def cyclic (heuristic : StateId → UInt64) : PureAdapter where
  transitions := fun state =>
    if state = 0 then [⟨1, 3, 11⟩, ⟨2, 1, 12⟩]
    else if state = 1 then [⟨1, 0, 21⟩, ⟨2, 0, 22⟩, ⟨3, 9, 23⟩]
    else if state = 2 then [⟨1, 0, 31⟩]
    else []
  goal := fun _ => false
  heuristic := some heuristic

/-- Walks in the cyclic graph stay among its four states. -/
theorem cyclic_covers (heuristic : StateId → UInt64) :
    (cyclic heuristic).Covers 0 {0, 1, 2, 3} := by
  have hclosed (u : StateId) (hu : u ∈ ({0, 1, 2, 3} : Finset StateId)) (t : Transition)
      (ht : t ∈ (cyclic heuristic).transitions u) : t.state ∈ ({0, 1, 2, 3} : Finset StateId) := by
    simp only [Finset.mem_insert, Finset.mem_singleton] at hu
    rcases hu with rfl | rfl | rfl | rfl <;> simp [cyclic] at ht <;> grind
  have hwalk (ts : List Transition) (u s : StateId)
      (hu : u ∈ ({0, 1, 2, 3} : Finset StateId)) (h : (cyclic heuristic).Walk u ts s) :
      s ∈ ({0, 1, 2, 3} : Finset StateId) := by
    induction ts generalizing u with
    | nil => exact h ▸ hu
    | cons t ts ih => exact ih t.state (hclosed u hu t h.1) h.2
  exact fun ts s h => hwalk ts 0 s (by decide) h

theorem search_loop_ends_cyclic :
    ∃ r, atrinikPfSearch (2^67) (some (atrinikPfContextCreate fun _ => true))
      (some (cyclic fun s => if s = 2 then 5 else 0).toAdapter) 0
      (some { algorithm := .astar }) 0 = some r :=
  search_loop_ends (cyclic fun s => if s = 2 then 5 else 0) 0 {0, 1, 2, 3} (cyclic_covers _)
    (atrinikPfContextCreate fun _ => true) (.created _) (some { algorithm := .astar }) 0 (2^67)
    (by decide)

end LibAtrinik.Pathfinding

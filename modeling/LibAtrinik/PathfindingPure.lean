import LibAtrinik.PathfindingSearch

/-! Adapters without hidden state: every state enumerates a fixed list of transitions, and
the goal, the heuristic and the rank are functions of the state. Cancellation is a function
of the number of earlier polls, which is all that the adapter's context has to hold. -/
namespace LibAtrinik.Pathfinding

structure PureAdapter where
  transitions : StateId → List Transition
  /-- What `neighbors` returns after the whole list; `false` is an adapter failure. -/
  enumerated : StateId → Bool := fun _ => true
  /-- Whether `neighbors` goes on after `emit` has returned false. -/
  ignoresStop : Bool := false
  goal : StateId → Bool := fun _ => false
  heuristic : Option (StateId → UInt64) := none
  partialRank : Option (StateId → UInt64) := none
  cancelled : Option (ℕ → Bool) := none

def PureAdapter.enumerate (adapter : PureAdapter) (state : StateId) :
    List Transition → ℕ → Enumeration ℕ
  | [], polls => .finish (adapter.enumerated state) polls
  | transition :: rest, polls => .emit (some transition) polls fun emitted polls =>
    if emitted || adapter.ignoresStop then adapter.enumerate state rest polls
    else .finish false polls

def PureAdapter.toAdapter (adapter : PureAdapter) : Adapter ℕ where
  neighbors := some fun polls state => adapter.enumerate state (adapter.transitions state) polls
  goal := some fun polls state => (adapter.goal state, polls)
  heuristic := adapter.heuristic.map fun heuristic polls state => (heuristic state, polls)
  partialRank := adapter.partialRank.map fun rank polls state => (rank state, polls)
  cancelled := adapter.cancelled.map fun cancelled polls => (cancelled polls, polls+1)

/-- A small graph in which the transition from 0 to 1 is longer than the detour over 2. The
instances of the results below use it with various goals and heuristics. -/
def detour (goal : StateId → Bool) (heuristic : StateId → UInt64) : PureAdapter where
  transitions := fun state =>
    if state = 0 then [⟨1, 3, 11⟩, ⟨2, 1, 12⟩]
    else if state = 1 then [⟨4, 1, 14⟩]
    else if state = 2 then [⟨1, 1, 21⟩]
    else []
  goal := goal
  heuristic := some heuristic
  partialRank := some fun state => if state = 4 then 0 else 9

end LibAtrinik.Pathfinding

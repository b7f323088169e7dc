import Mathlib.Order.Lattice.Nat
import LibAtrinik.LabelledWalk

namespace Discovery

open LabelledWalk

variable {V E : Type*} [DecidableEq V] {out : V → List E} {target : E → V} {start : V}
  {queue : List V} {c : ℕ} {done : List E} {v : V}

/-- Append a vertex that has not been seen. -/
def see (seen : List V) (v : V) : List V := if v ∈ seen then seen else seen ++ [v]

/-- The members of a list in the order of their first occurrence. -/
def firstSeen (vs : List V) : List V := vs.foldl see []

theorem see_getElem? (seen : List V) (v : V) (c : ℕ) (u : V) (h : seen[c]? = some u) :
    (see seen v)[c]? = some u := by
  have hc := (List.getElem?_eq_some_iff.mp h).1
  unfold see
  split_ifs
  · exact h
  · rw [List.getElem?_append_left hc]
    exact h

/-- The vertex at position `p` is the first one that has an edge to `v`. -/
structure FirstFrom (out : V → List E) (target : E → V) (queue : List V) (p : ℕ) (v : V) :
    Prop where
  edge : ∃ u, queue[p]? = some u ∧ ∃ e ∈ out u, target e = v
  first : ∀ q < p, ∀ u, queue[q]? = some u → ∀ e ∈ out u, target e ≠ v

/-- The vertices before position `c` have been expanded, and of the edges of the vertex at `c`
those in `done` have been followed. -/
structure Explored (out : V → List E) (target : E → V) (start : V) (queue : List V) (c : ℕ)
    (done : List E) : Prop where
  head : queue[0]? = some start
  nodup : queue.Nodup
  bound : c ≤ queue.length
  sound : ∀ v ∈ queue, Reachable out target start v
  expanded : ∀ i < c, ∀ u, queue[i]? = some u → ∀ e ∈ out u, target e ∈ queue
  followed : ∀ e ∈ done, target e ∈ queue
  found : ∀ j v, queue[j]? = some v → 0 < j → ∃ p ≤ c, p < j ∧ FirstFrom out target queue p v
  order : ∀ i j u v p q, queue[i]? = some u → queue[j]? = some v → 0 < i → i ≤ j →
    FirstFrom out target queue p u → FirstFrom out target queue q v → p ≤ q
  listing : queue = done.foldl (fun seen e => see seen (target e))
    (firstSeen (start :: (queue.take c).flatMap fun u => (out u).map target))

omit [DecidableEq V] in
theorem FirstFrom.unique {p q : ℕ} (hp : FirstFrom out target queue p v)
    (hq : FirstFrom out target queue q v) : p = q := by
  obtain ⟨u, hu, e, he, hv⟩ := hp.edge
  obtain ⟨u', hu', e', he', hv'⟩ := hq.edge
  rcases Nat.lt_trichotomy p q with h | h | h
  · exact absurd hv (hq.first p h u hu e he)
  · exact h
  · exact absurd hv' (hp.first q h u' hu' e' he')

omit [DecidableEq V] in
/-- Appending a vertex does not change who discovered the others. -/
theorem firstFrom_append {p : ℕ} (hp : p < queue.length) (w : V) :
    FirstFrom out target (queue ++ [w]) p v ↔ FirstFrom out target queue p v := by
  have hat (q : ℕ) (hq : q ≤ p) : (queue ++ [w])[q]? = queue[q]? :=
    List.getElem?_append_left (by omega)
  constructor
  · rintro ⟨hedge, hfirst⟩
    rw [hat p le_rfl] at hedge
    exact ⟨hedge, fun q hq u hu => hfirst q hq u (by rwa [hat q (by omega)])⟩
  · rintro ⟨hedge, hfirst⟩
    refine ⟨by rwa [hat p le_rfl], fun q hq u hu => hfirst q hq u ?_⟩
    rwa [hat q (by omega)] at hu

theorem explored_start (out : V → List E) (target : E → V) (start : V) :
    Explored out target start [start] 0 [] := by
  refine ⟨rfl, by simp, by simp, ?_, by simp, by simp, ?_, ?_, rfl⟩
  · intro v hv
    rw [List.mem_singleton.mp hv]
    exact Reachable.refl start
  · intro j v hj h0
    rw [List.getElem?_eq_none (by simp; omega)] at hj
    cases hj
  · intro i j u v p q hi hj h0
    rw [List.getElem?_eq_none (by simp; omega)] at hi
    cases hi

omit [DecidableEq V] in
/-- A position in a list with one more vertex is an old one, or that of the vertex. -/
theorem getElem?_concat_cases {w x : V} {q : ℕ} (h : (queue ++ [w])[q]? = some x) :
    (q < queue.length ∧ queue[q]? = some x) ∨ (q = queue.length ∧ x = w) := by
  rcases Nat.lt_or_ge q queue.length with hlt | hge
  · exact Or.inl ⟨hlt, by rwa [List.getElem?_append_left hlt] at h⟩
  · right
    have hlen := (List.getElem?_eq_some_iff.mp h).1
    rw [List.length_append, List.length_singleton] at hlen
    obtain rfl : q = queue.length := by omega
    rw [List.getElem?_concat_length] at h
    exact ⟨rfl, (Option.some.inj h).symm⟩

/-- A vertex that has not been seen is discovered at the cursor: the targets of the edges before
it are all in the queue. -/
theorem Explored.firstFrom_new (h : Explored out target start queue c done) {u : V}
    (hu : queue[c]? = some u) {e : E} (he : e ∈ out u) (hmem : target e ∉ queue) :
    FirstFrom out target (queue ++ [target e]) c (target e) := by
  rw [firstFrom_append (List.getElem?_eq_some_iff.mp hu).1]
  refine ⟨⟨u, hu, e, he, rfl⟩, ?_⟩
  intro q hq w hw e' he' heq
  exact hmem (heq ▸ h.expanded q hq w hw e' he')

/-- Every vertex that has been seen is discovered where it was. -/
theorem Explored.firstFrom_old (h : Explored out target start queue c done)
    (hc : c < queue.length) {i p : ℕ} {w x : V} (hi : queue[i]? = some w) (h0 : 0 < i)
    (hp : FirstFrom out target (queue ++ [x]) p w) : p ≤ c ∧ FirstFrom out target queue p w := by
  obtain ⟨p', hp', _, hf⟩ := h.found i w hi h0
  have hf' := (firstFrom_append (by omega) x).mpr hf
  obtain rfl := hp.unique hf'
  exact ⟨hp', hf⟩

/-- Following one more edge of the vertex at the cursor. -/
theorem Explored.see (h : Explored out target start queue c done) {u : V}
    (hu : queue[c]? = some u) (e : E) (he : e ∈ out u) :
    Explored out target start (see queue (target e)) c (done ++ [e]) := by
  have hc : c < queue.length := (List.getElem?_eq_some_iff.mp hu).1
  by_cases hmem : target e ∈ queue
  · have hsee : Discovery.see queue (target e) = queue := if_pos hmem
    rw [hsee]
    refine ⟨h.head, h.nodup, h.bound, h.sound, h.expanded, ?_, h.found, h.order, ?_⟩
    · intro e' he'
      rcases List.mem_append.mp he' with he' | he'
      · exact h.followed e' he'
      · rw [List.mem_singleton.mp he']
        exact hmem
    · rw [List.foldl_append, ← h.listing]
      exact hsee.symm
  · have hsee : Discovery.see queue (target e) = queue ++ [target e] := if_neg hmem
    rw [hsee]
    have hat (q : ℕ) (hq : q < queue.length) : (queue ++ [target e])[q]? = queue[q]? :=
      List.getElem?_append_left hq
    have hnew := h.firstFrom_new hu he hmem
    refine ⟨?_, ?_, ?_, ?_, ?_, ?_, ?_, ?_, ?_⟩
    · rw [hat 0 (by omega)]
      exact h.head
    · rw [List.nodup_append]
      refine ⟨h.nodup, by simp, ?_⟩
      intro x hx y hy hxy
      rw [List.mem_singleton.mp hy] at hxy
      exact hmem (hxy ▸ hx)
    · rw [List.length_append]
      exact h.bound.trans (Nat.le_add_right _ _)
    · intro w hw
      rcases List.mem_append.mp hw with hw | hw
      · exact h.sound w hw
      · rw [List.mem_singleton.mp hw]
        exact (h.sound u (List.mem_of_getElem? hu)).step he
    · intro i hi w hw e' he'
      rw [hat i (by omega)] at hw
      exact List.mem_append_left _ (h.expanded i hi w hw e' he')
    · intro e' he'
      rcases List.mem_append.mp he' with he' | he'
      · exact List.mem_append_left _ (h.followed e' he')
      · rw [List.mem_singleton.mp he']
        exact List.mem_append_right _ (List.mem_singleton.mpr rfl)
    · intro j w hj h0
      rcases getElem?_concat_cases hj with ⟨_, hj'⟩ | ⟨rfl, rfl⟩
      · obtain ⟨p, hp, hpj, hf⟩ := h.found j w hj' h0
        exact ⟨p, hp, hpj, (firstFrom_append (by omega) (target e)).mpr hf⟩
      · exact ⟨c, le_rfl, hc, hnew⟩
    · intro i j x y p q hi hj h0 hij hp hq
      rcases getElem?_concat_cases hi with ⟨hil, hi'⟩ | ⟨rfl, rfl⟩
      · obtain ⟨hpc, hp'⟩ := h.firstFrom_old hc hi' h0 hp
        rcases getElem?_concat_cases hj with ⟨_, hj'⟩ | ⟨_, rfl⟩
        · obtain ⟨_, hq'⟩ := h.firstFrom_old hc hj' (by omega) hq
          exact h.order i j x y p q hi' hj' h0 hij hp' hq'
        · rw [hq.unique hnew]
          exact hpc
      · rcases getElem?_concat_cases hj with ⟨hjl, _⟩ | ⟨_, rfl⟩
        · omega
        · rw [hp.unique hq]
    · rw [List.foldl_append, List.take_append_of_le_length h.bound, ← h.listing]
      exact hsee.symm

theorem Explored.seeAll {u : V} (es : List E) (h : Explored out target start queue c done)
    (hu : queue[c]? = some u) (hes : ∀ e ∈ es, e ∈ out u) :
    Explored out target start (es.foldl (fun seen e => Discovery.see seen (target e)) queue) c
      (done ++ es) := by
  induction es generalizing queue done with
  | nil => rwa [List.append_nil]
  | cons e es ih =>
    have hstep := h.see hu e (hes e List.mem_cons_self)
    have hend := ih hstep (see_getElem? queue (target e) c u hu)
      (fun e' he' => hes e' (List.mem_cons_of_mem e he'))
    rwa [List.append_assoc] at hend

/-- When all the edges of a vertex have been followed, the cursor moves on. -/
theorem Explored.advance {u : V} (hu : queue[c]? = some u)
    (h : Explored out target start queue c (out u)) :
    Explored out target start queue (c+1) [] := by
  have hc : c < queue.length := (List.getElem?_eq_some_iff.mp hu).1
  refine ⟨h.head, h.nodup, hc, h.sound, ?_, by simp, ?_, h.order, ?_⟩
  · intro i hi w hw e he
    rcases Nat.lt_succ_iff_lt_or_eq.mp hi with hlt | rfl
    · exact h.expanded i hlt w hw e he
    · rw [hu] at hw
      rw [← Option.some.inj hw] at he
      exact h.followed e he
  · intro j w hj h0
    obtain ⟨p, hp, hrest⟩ := h.found j w hj h0
    exact ⟨p, Nat.le_succ_of_le hp, hrest⟩
  · have htake : queue.take (c+1) = queue.take c ++ [u] := by
      rw [List.take_add_one, hu]
      rfl
    rw [htake, List.flatMap_append, List.flatMap_singleton, ← List.cons_append, firstSeen,
      List.foldl_append, List.foldl_nil, List.foldl_map]
    exact h.listing

/-- Everything reachable has been seen, and nothing else, when the cursor is at the end. -/
theorem Explored.mem_iff (h : Explored out target start queue queue.length []) (v : V) :
    v ∈ queue ↔ Reachable out target start v := by
  refine ⟨h.sound v, ?_⟩
  rintro ⟨es, hes⟩
  have hwalk (u : V) (hu : u ∈ queue) (hw : IsWalk out target u es v) : v ∈ queue := by
    clear hes
    induction es generalizing u with
    | nil => exact (show u = v from hw) ▸ hu
    | cons e es ih =>
      obtain ⟨i, hi, rfl⟩ := List.getElem_of_mem hu
      exact ih (target e) (h.expanded i hi _ (List.getElem?_eq_getElem hi) e hw.1) hw.2
  exact hwalk start (List.mem_of_getElem? h.head) hes

/-- The earlier of two vertices can be reached in no more steps than the later one. -/
theorem Explored.shorter (h : Explored out target start queue queue.length []) (n i j : ℕ)
    (u v : V) (hi : queue[i]? = some u) (hj : queue[j]? = some v) (hij : i ≤ j) (es : List E)
    (hes : IsWalk out target start es v) (hn : es.length = n) :
    ∃ fs, IsWalk out target start fs u ∧ fs.length ≤ n := by
  induction n generalizing i j u v es with
  | zero =>
    -- only the start can be reached without a step, and it is first
    obtain rfl := List.length_eq_zero_iff.mp hn
    have hv : start = v := hes
    have hjl := (List.getElem?_eq_some_iff.mp hj).1
    have h0 : j = 0 := by
      have hhead := h.head
      rw [hv, ← hj] at hhead
      exact ((List.getElem?_inj (by omega) h.nodup).mp hhead).symm
    obtain rfl : i = j := by omega
    rw [hi] at hj
    rw [Option.some.inj hj]
    exact ⟨[], hv, le_rfl⟩
  | succ n ih =>
    by_cases h0 : i = 0
    · rw [h0, h.head] at hi
      rw [← Option.some.inj hi]
      exact ⟨[], rfl, Nat.zero_le _⟩
    · -- the discoverer of `u` is not later than the last vertex before `v`
      obtain ⟨p, _, _, hp⟩ := h.found i u hi (by omega)
      obtain ⟨q, _, _, hq⟩ := h.found j v hj (by omega)
      have hpq := h.order i j u v p q hi hj (by omega) hij hp hq
      obtain ⟨init, e, rfl⟩ : ∃ init e, es = init ++ [e] := by
        refine ⟨es.dropLast, es.getLast (by rintro rfl; simp at hn), ?_⟩
        exact (List.dropLast_append_getLast _).symm
      obtain ⟨m, hinit, he, hm⟩ := isWalk_append.mp hes
      have hmq : m ∈ queue := (h.mem_iff m).mpr ⟨init, hinit⟩
      obtain ⟨k, hk, rfl⟩ := List.getElem_of_mem hmq
      have hqk : q ≤ k := by
        by_contra hlt
        exact hq.first k (by omega) _ (List.getElem?_eq_getElem hk) e he hm
      obtain ⟨w, hw, e', he', hu'⟩ := hp.edge
      obtain ⟨fs, hfs, hlen⟩ := ih p k w _ hw (List.getElem?_eq_getElem hk) (by omega) init hinit
        (by simpa using hn)
      refine ⟨fs ++ [e'], ?_, by simp; omega⟩
      rw [← hu']
      exact hfs.snoc he'

end Discovery

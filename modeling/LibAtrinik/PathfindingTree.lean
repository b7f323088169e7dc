import LibAtrinik.SearchForest
import LibAtrinik.PathfindingCounters
import LibAtrinik.PathfindingEvents

namespace LibAtrinik.Pathfinding

open SearchForest

variable {σ : Type} {start : StateId} {algorithm : Algorithm} {c c' : Context}

/-- The last of the points to give node `j` its link is the emission of `t` from node `q`. -/
def SetBy (algorithm : Algorithm) (points : List SearchPoint) (j q : ℕ) (t : Transition) : Prop :=
  ∃ front a b back, points = front ++ a :: b :: back ∧ b.1 = .emitted (some t) ∧
    LinkSet algorithm q j t a.2 b.2 ∧ ∀ r ∈ b :: back, (r.2.node j).link = (b.2.node j).link

/-- The parents of node `i` lead over the nodes of a list to the start node. -/
structure ParentChain (c : Context) (i : ℕ) (chain : List ℕ) : Prop where
  head : chain.head? = some i
  last : chain.getLast? = some 0
  linked : chain.IsChain fun a b => (c.node a).parent = some b
  nodup : chain.Nodup
  bound : ∀ a ∈ chain, a < c.nodeCount

/-- The parents and costs of the nodes. -/
def linksOf (c : Context) : Forest ℕ Unit where
  parent := fun i => if i < c.nodeCount then (c.node i).parent else none
  cost := fun i => if i < c.nodeCount then (c.node i).cost else 0
  key := fun _ => ()
  frontier := fun _ => True

/-- Node `j` hangs under a node that is not dearer than it, as the transition that set it says. -/
def Hangs (algorithm : Algorithm) (points : List SearchPoint) (c : Context) (j : ℕ) : Prop :=
  ∃ q t, SetBy algorithm points j q t ∧ q < c.nodeCount ∧ (c.node j).parent = some q ∧
    (c.node q).cost+stepCost algorithm t ≤ (c.node j).cost

/-- What the links say at a point of a search, which is the last of the points. -/
structure Rooted (start : StateId) (algorithm : Algorithm) (points : List SearchPoint)
    (c : Context) : Prop where
  root : 0 < c.nodeCount → (c.node 0).link = ⟨start, 0, 0, none⟩
  hangs : ∀ j, 0 < j → j < c.nodeCount → Hangs algorithm points c j
  grounded : Grounded (linksOf c)

theorem LinksKept.linksOf_eq (h : LinksKept c c') : linksOf c' = linksOf c := by
  unfold linksOf
  rw [h.count]
  congr 1
  · funext i
    split_ifs with hi
    · exact congrArg Link.parent (h.link i hi)
    · rfl
  · funext i
    split_ifs with hi
    · exact congrArg Link.cost (h.link i hi)
    · rfl

/-- Setting a link attaches the node to the active one. -/
theorem LinkSet.linksOf_eq {active k : ℕ} {t : Transition}
    (h : LinkSet algorithm active k t c c') :
    linksOf c' = (linksOf c).attach k active ((c.node active).cost+stepCost algorithm t) () := by
  have hcount (i : ℕ) (hik : i ≠ k) : i < c'.nodeCount ↔ i < c.nodeCount := by
    rcases h.place with ⟨hk, hn⟩ | ⟨_, hn, _⟩ <;> omega
  have hk : k < c'.nodeCount := by
    rcases h.place with ⟨hk, hn⟩ | ⟨hk, hn, _⟩ <;> omega
  unfold linksOf Forest.attach
  congr 1
  · funext i
    rw [Function.update_apply]
    by_cases hik : i = k
    · rw [if_pos hik, hik, if_pos hk]
      exact congrArg Link.parent h.link
    · rw [if_neg hik]
      simp only [hcount i hik]
      split_ifs with hi
      · exact congrArg Link.parent (h.other i hi hik)
      · rfl
  · funext i
    rw [Function.update_apply]
    by_cases hik : i = k
    · rw [if_pos hik, hik, if_pos hk]
      exact congrArg Link.cost h.link
    · rw [if_neg hik]
      simp only [hcount i hik]
      split_ifs with hi
      · exact congrArg Link.cost (h.other i hi hik)
      · rfl
  · exact (Function.update_eq_self k _).symm

/-- The last point keeps what has been set before it. -/
theorem SetBy.link_eq {points : List SearchPoint} {p : SearchPoint} {j q : ℕ} {t : Transition}
    (h : SetBy algorithm (points ++ [p]) j q t) (r : SearchPoint)
    (hr : (r.2.node j).link = (p.2.node j).link) :
    SetBy algorithm (points ++ [p] ++ [r]) j q t := by
  obtain ⟨front, a, b, back, hpoints, hevent, hset, hkept⟩ := h
  have hlast := congrArg List.getLast? hpoints
  rw [List.getLast?_concat, List.getLast?_append_of_ne_nil _ (List.cons_ne_nil _ _),
    List.getLast?_cons_cons] at hlast
  have hp := hkept p (List.mem_of_getLast? hlast.symm)
  refine ⟨front, a, b, back ++ [r], ?_, hevent, hset, ?_⟩
  · rw [hpoints, List.append_assoc]
    rfl
  · intro x hx
    rcases List.mem_append.mp (show x ∈ (b :: back) ++ [r] from hx) with hx | hx
    · exact hkept x hx
    · rw [List.mem_singleton.mp hx]
      exact hr.trans hp

theorem Hangs.kept {points : List SearchPoint} {p r : SearchPoint} {j : ℕ}
    (h : Hangs algorithm (points ++ [p]) p.2 j) (hn : p.2.nodeCount ≤ r.2.nodeCount)
    (hlink : (r.2.node j).link = (p.2.node j).link)
    (hcost : ∀ q < p.2.nodeCount, (r.2.node q).cost ≤ (p.2.node q).cost) :
    Hangs algorithm (points ++ [p] ++ [r]) r.2 j := by
  obtain ⟨q, t, hset, hlt, hparent, hle⟩ := h
  have hp : (r.2.node j).parent = (p.2.node j).parent := congrArg Link.parent hlink
  have hc : (r.2.node j).cost = (p.2.node j).cost := congrArg Link.cost hlink
  have hq := hcost q hlt
  exact ⟨q, t, hset.link_eq r hlink, hlt.trans_le hn, hp.trans hparent, by omega⟩

/-- No node of an empty context, and not the start node, has a parent. -/
theorem grounded_of_parentless (h : ∀ i < c.nodeCount, (c.node i).parent = none) :
    Grounded (linksOf c) := by
  have hnone (i : ℕ) : (linksOf c).parent i = none := by
    show (if i < c.nodeCount then (c.node i).parent else none) = none
    split_ifs with hi
    · exact h i hi
    · rfl
  constructor
  · exact fun a => (linksOf c).not_above_root (hnone a) a
  · intro g p hp
    rw [hnone] at hp
    cases hp

section Set

variable {points : List SearchPoint} {active k : ℕ} {t : Transition}

theorem Rooted.parent_lt (h : Rooted start algorithm points c) (i : ℕ) (hi : i < c.nodeCount)
    (p : ℕ) (hp : (c.node i).parent = some p) : p < c.nodeCount := by
  rcases Nat.eq_zero_or_pos i with rfl | h0
  · have hroot : (c.node 0).parent = none := congrArg Link.parent (h.root hi)
    rw [hroot] at hp
    cases hp
  · obtain ⟨q, _, _, hlt, hq, _⟩ := h.hangs i h0 hi
    rw [hq] at hp
    exact Option.some.inj hp ▸ hlt

/-- A link is set to a new node or strictly lowers a cost. -/
theorem Rooted.improves (h : Rooted start algorithm points c)
    (hset : LinkSet algorithm active k t c c') :
    (linksOf c).Improves k active ((c.node active).cost+stepCost algorithm t) () := by
  rcases hset.place with ⟨hk, _⟩ | ⟨hk, _, hlt⟩
  · refine Or.inl ⟨fun g hg => ?_, by have := hset.bound; omega⟩
    have hg' : (if g < c.nodeCount then (c.node g).parent else none) = some k := hg
    split_ifs at hg' with hi
    have := h.parent_lt g hi k hg'
    omega
  · refine Or.inr ⟨?_, le_rfl⟩
    show _ < if k < c.nodeCount then (c.node k).cost else 0
    rwa [if_pos hk]

/-- Costs only fall. -/
theorem LinkSet.cost_le (hset : LinkSet algorithm active k t c c') (q : ℕ) (hq : q < c.nodeCount) :
    (c'.node q).cost ≤ (c.node q).cost := by
  by_cases hqk : q = k
  · have hcost : (c'.node k).cost = (c.node active).cost+stepCost algorithm t :=
      congrArg Link.cost hset.link
    rw [hqk, hcost]
    rcases hset.place with ⟨hk, _⟩ | ⟨_, _, hlt⟩
    · omega
    · exact hlt.le
  · exact (congrArg Link.cost (hset.other q hq hqk)).le

/-- A link is set. -/
theorem Rooted.set {p r : SearchPoint} (h : Rooted start algorithm (points ++ [p]) p.2)
    (hevent : r.1 = .emitted (some t)) (hset : LinkSet algorithm active k t p.2 r.2) :
    Rooted start algorithm (points ++ [p] ++ [r]) r.2 := by
  have hbound := hset.bound
  have hle : p.2.nodeCount ≤ r.2.nodeCount := by
    rcases hset.place with ⟨_, hn⟩ | ⟨_, hn, _⟩ <;> omega
  have hcost : (linksOf p.2).cost active ≤ (p.2.node active).cost+stepCost algorithm t := by
    show (if active < p.2.nodeCount then (p.2.node active).cost else 0) ≤ _
    rw [if_pos hbound]
    omega
  have himp := h.improves hset
  obtain ⟨hne, _⟩ := h.grounded.not_above_active himp hcost
  have hroot := h.root (by omega)
  -- the start node costs nothing, so its link is never set
  have hk0 : (0 : ℕ) ≠ k := by
    rintro rfl
    have hzero : (p.2.node 0).cost = 0 := congrArg Link.cost hroot
    rcases hset.place with ⟨hk, _⟩ | ⟨_, _, hlt⟩ <;> omega
  refine ⟨fun _ => (hset.other 0 (by omega) hk0).trans hroot, fun j h0 hj => ?_, ?_⟩
  · by_cases hjk : j = k
    · -- the active node keeps its cost, so the sum is still that of its present cost
      have hactive : (r.2.node active).cost = (p.2.node active).cost :=
        congrArg Link.cost (hset.other active hbound (Ne.symm hne))
      have hnew : (r.2.node k).cost = (p.2.node active).cost+stepCost algorithm t :=
        congrArg Link.cost hset.link
      rw [hjk]
      refine ⟨active, t, ⟨points, p, r, [], by simp, hevent, hset, by simp⟩, by omega,
        congrArg Link.parent hset.link, by omega⟩
    · -- the parent of any other node has at most become cheaper
      have hj' : j < p.2.nodeCount := by
        rcases hset.place with ⟨hk, hn⟩ | ⟨_, hn, _⟩ <;> omega
      exact (h.hangs j h0 hj').kept hle (hset.other j hj' hjk) hset.cost_le
  · rw [hset.linksOf_eq]
    exact h.grounded.attach himp hcost

end Set

/-- One step of a search. -/
theorem Rooted.next {points : List SearchPoint} {p r : SearchPoint}
    (h : Rooted start algorithm (points ++ [p]) p.2) (hn : Next start algorithm p r) :
    Rooted start algorithm (points ++ [p] ++ [r]) r.2 := by
  rcases hn.links with hk | hseed | ⟨t, active, k, hevent, hset⟩
  · have hcount := hk.count
    refine ⟨fun h0 => (hk.link 0 (by omega)).trans (h.root (by omega)), fun j h0 hj => ?_, ?_⟩
    · rw [hcount] at hj
      exact (h.hangs j h0 hj).kept hcount.ge (hk.link j hj)
        fun q hq => (congrArg Link.cost (hk.link q hq)).le
    · rw [hk.linksOf_eq]
      exact h.grounded
  · have hcount := hseed.count
    refine ⟨fun _ => hseed.link, fun j h0 hj => by omega, grounded_of_parentless fun i hi => ?_⟩
    obtain rfl : i = 0 := by omega
    exact congrArg Link.parent hseed.link
  · exact h.set hevent hset

/-- Every point of a search. -/
theorem rooted_of_split (hs : Shape c) (fuel : ℕ) (adapter : Option (Adapter σ)) (start : StateId)
    (options : Option Options) (world : σ) (front back : List SearchPoint) (p : SearchPoint)
    (h : atrinikPfSearchTrace fuel c adapter start options world = front ++ p :: back) :
    Rooted start (options.getD atrinikPfOptionsInit).algorithm (front ++ [p]) p.2 := by
  obtain ⟨_, hpass⟩ := atrinikPfSearchTrace_passes hs fuel adapter start options world
  refine hpass.history (fun seen p => Rooted start (options.getD atrinikPfOptionsInit).algorithm
    (seen ++ [p]) p.2) (fun seen a b hn h => h.next hn) [] ?_ front p back h
  exact ⟨fun h0 => absurd h0 (Nat.lt_irrefl 0), fun j _ hj => absurd hj (Nat.not_lt_zero j),
    grounded_of_parentless fun i hi => absurd hi (Nat.not_lt_zero i)⟩

theorem Rooted.parentsBelow {points : List SearchPoint} (h : Rooted start algorithm points c) :
    ParentsBelow c c.nodeCount :=
  fun i hi p hp => h.parent_lt i hi p hp

/-- The parents of a node lead to the start node. -/
theorem Rooted.exists_chain {points : List SearchPoint} (h : Rooted start algorithm points c)
    (i : ℕ) (hi : i < c.nodeCount) : ∃ chain, ParentChain c i chain := by
  have hparent (a b : ℕ) (hb : (linksOf c).parent a = some b) :
      a < c.nodeCount ∧ (c.node a).parent = some b := by
    have hb' : (if a < c.nodeCount then (c.node a).parent else none) = some b := hb
    split_ifs at hb' with ha
    exact ⟨ha, hb'⟩
  have habove (a : ℕ) (ha : a = i ∨ (linksOf c).Above a i) : a < c.nodeCount := by
    rcases ha with rfl | ha
    · exact hi
    · obtain ⟨g, hg, _⟩ := Relation.TransGen.head'_iff.mp ha
      obtain ⟨hlt, hp⟩ := hparent g a hg
      exact h.parent_lt g hlt a hp
  obtain ⟨chain, r, hhead, hlast, hr, hlinked, hnodup, _, hmem⟩ :=
    h.grounded.exists_chain (Finset.range c.nodeCount) i
      fun a ha => Finset.mem_range.mpr (habove a ha)
  have hbound (a : ℕ) (ha : a ∈ chain) : a < c.nodeCount := habove a (hmem a ha)
  -- only the start node has no parent
  have hr0 : r = 0 := by
    by_contra hne
    have hlt := hbound r (List.mem_of_getLast? hlast)
    obtain ⟨q, _, _, _, hq, _⟩ := h.hangs r (Nat.pos_of_ne_zero hne) hlt
    have hr' : (if r < c.nodeCount then (c.node r).parent else none) = none := hr
    rw [if_pos hlt, hq] at hr'
    cases hr'
  exact ⟨chain, hhead, hr0 ▸ hlast, hlinked.imp fun a b hb => (hparent a b hb).2, hnodup, hbound⟩

/-- The step that `pf_build_path` writes for a node. -/
def Context.stepAt (c : Context) (i : ℕ) : Step := ⟨(c.node i).state, (c.node i).transitionData⟩

theorem ParentChain.length_le {i : ℕ} {chain : List ℕ} (h : ParentChain c i chain) :
    chain.length ≤ c.nodeCount := by
  have hsub : chain.toFinset ⊆ Finset.range c.nodeCount := fun a ha =>
    Finset.mem_range.mpr (h.bound a (List.mem_toFinset.mp ha))
  rw [← List.toFinset_card_of_nodup h.nodup, ← Finset.card_range c.nodeCount]
  exact Finset.card_le_card hsub

/-- The steps along the chain of a node. -/
theorem ParentChain.pathTo_eq {i : ℕ} {chain : List ℕ} (h : ParentChain c i chain)
    (hi : Indexed c) (hroot : (c.node 0).parent = none) :
    pathTo c.nodeList c.nodeCount (some i) = some ((chain.map c.stepAt).reverse) := by
  have hparent (a : ℕ) (ha : a < c.nodeCount) :
      (nodeAt c.nodeList a).parent = (c.node a).parent := by
    rw [hi.nodeAt_eq a ha]
    rfl
  have hstep (a : ℕ) (ha : a ∈ chain) :
      (⟨(nodeAt c.nodeList a).state, (nodeAt c.nodeList a).transitionData⟩ : Step) =
        c.stepAt a := by
    rw [hi.nodeAt_eq a (h.bound a ha)]
    rfl
  have hlinked : chain.IsChain fun a b => (nodeAt c.nodeList a).parent = some b :=
    h.linked.imp_of_mem_imp fun a b ha _ hab => (hparent a (h.bound a ha)).trans hab
  have h0 := h.bound 0 (List.mem_of_getLast? h.last)
  have hpath := pathTo_chain c.nodeList chain 0 h.last ((hparent 0 h0).trans hroot) hlinked
    c.nodeCount h.length_le
  rwa [h.head, List.map_congr_left hstep] at hpath

/-- Both loops of `pf_build_path` follow the chain of a node and stop: the first one counts its
nodes, and the second one writes one step for each of them and nothing else. -/
structure WritesPath (c : Context) (i : ℕ) (chain : List ℕ) : Prop where
  counted : pfPathCount c c.nodeCount (some i) 0 = some chain.length
  written : ∀ path : List Step, chain.length ≤ path.length →
    (pfPathWrite c chain.length (some i) path).take chain.length = (chain.map c.stepAt).reverse
  kept : ∀ (path : List Step) (j : ℕ), chain.length ≤ j →
    (pfPathWrite c chain.length (some i) path)[j]? = path[j]?
  built : ∀ result, ∃ built, pfBuildPath c i result = some built ∧
    (built.1 = true → built.2.1.steps = clearFirst ((chain.map c.stepAt).reverse))

theorem ParentChain.writesPath {i : ℕ} {chain : List ℕ} (h : ParentChain c i chain)
    (hi : Indexed c) (hp : ParentsBelow c c.nodeCount) (hroot : (c.node 0).parent = none) :
    WritesPath c i chain := by
  have hlt : i < c.nodeCount := h.bound i (List.mem_of_head? h.head)
  have hc (j : ℕ) (hj : some i = some j) : j < c.nodeCount := Option.some.inj hj ▸ hlt
  have hpath := h.pathTo_eq hi hroot
  have hsteps : ((chain.map c.stepAt).reverse).length = chain.length := by simp
  have hcount : pfPathCount c c.nodeCount (some i) 0 = some chain.length := by
    rw [pfPathCount_eq c hi hp c.nodeCount (some i) hc 0, hpath, Option.map_some, hsteps,
      Nat.zero_add]
  refine ⟨hcount, fun path hl => ?_, fun path j hj => pfPathWrite_above c _ _ path j hj,
    fun result => ?_⟩
  · have htake := pfPathWrite_take c hi hp c.nodeCount (some i) hc _ hpath path (by rwa [hsteps])
    rwa [hsteps] at htake
  · unfold pfBuildPath
    rw [hcount]
    dsimp only
    rcases pfReservePath_spec c hi.shape chain.length with ⟨m, he⟩ | ⟨m, path, cap, he, hl, hge⟩
    · rw [he]
      exact ⟨_, rfl, fun hb => by cases hb⟩
    · rw [he]
      have htake := pfPathWrite_take _ (hi.withPath m path cap hl) hp c.nodeCount (some i) hc _
        hpath path (by omega)
      rw [hsteps] at htake
      refine ⟨_, rfl, fun _ => ?_⟩
      dsimp only
      rw [take_set_zero, htake]

/-- At every point of a search each node has a chain of parents, which `pf_build_path` follows. -/
theorem chain_of_split (hs : Shape c) (fuel : ℕ) (adapter : Option (Adapter σ)) (start : StateId)
    (options : Option Options) (world : σ) (front back : List SearchPoint) (p : SearchPoint)
    (h : atrinikPfSearchTrace fuel c adapter start options world = front ++ p :: back) (i : ℕ)
    (hi : i < p.2.nodeCount) : ∃ chain, ParentChain p.2 i chain ∧ WritesPath p.2 i chain := by
  have hrooted := rooted_of_split hs fuel adapter start options world front back p h
  have hlisted := listed_of_mem hs fuel adapter start options world p (by rw [h]; simp)
  have hroot : (p.2.node 0).parent = none := congrArg Link.parent (hrooted.root (by omega))
  obtain ⟨chain, hchain⟩ := hrooted.exists_chain i hi
  exact ⟨chain, hchain, hchain.writesPath hlisted.indexed hrooted.parentsBelow hroot⟩

/-- At every point of a search the parents form a tree over the start node. -/
theorem parents_form_tree (c : Context) (hc : LeftBehind c) (fuel : ℕ)
    (adapter : Option (Adapter σ)) (start : StateId) (options : Option Options) (world : σ)
    (front back : List SearchPoint) (p : SearchPoint)
    (h : atrinikPfSearchTrace fuel c adapter start options world = front ++ p :: back) :
    (0 < p.2.nodeCount → (p.2.node 0).state = start ∧ (p.2.node 0).parent = none) ∧
    (∀ i < p.2.nodeCount, ∃ chain, ParentChain p.2 i chain ∧ WritesPath p.2 i chain) ∧
    ∀ j, 0 < j → j < p.2.nodeCount →
      Hangs (options.getD atrinikPfOptionsInit).algorithm (front ++ [p]) p.2 j := by
  have hrooted := rooted_of_split hc.shape fuel adapter start options world front back p h
  exact ⟨fun h0 => ⟨congrArg Link.state (hrooted.root h0), congrArg Link.parent (hrooted.root h0)⟩,
    chain_of_split hc.shape fuel adapter start options world front back p h, hrooted.hangs⟩

/-- After the detour has been found. -/
theorem parents_form_tree_detour :
    ∃ points c, Hangs .astar points c 1 ∧ (c.node 1).parent = some 2 ∧
      ∃ chain, ParentChain c 1 chain ∧ WritesPath c 1 chain := by
  have h := (parents_form_tree (atrinikPfContextCreate fun _ => true) (.created _) 9
    (some (detour (· = 4) fun _ => 0).toAdapter) 0 none 0 [_, _, _, _, _, _, _, _, _] _
    (.emitted (some ⟨1, 1, 21⟩), _) rfl).2
  exact ⟨_, _, h.2 1 (by decide) (by decide), by decide, h.1 1 (by decide)⟩

section End

/-- The context at the end of an operation: its counters keep to the budgets, and while all memory
has been granted they say how many states were discovered and how many were open at most. -/
def EndsWith (options : Options) (moments : List Moment) (c : Context) : Prop :=
  ∃ p, moments.getLast? = some p ∧ p.context = c ∧ WithinBudgets options c.metrics ∧
    (p.granted = true → c.metrics.generated = (statesOf c.nodeList).toFinset.card ∧
      IsGreatest {n | ∃ q ∈ moments, q.openStates = n} c.metrics.peakFrontier)

theorem EndsWith.of_tracked {o : Options} {moments : List Moment}
    (hwithin : ∀ p ∈ moments, WithinBudgets o p.context.metrics) (htracked : Tracked moments)
    (hlast : ∃ p, moments.getLast? = some p ∧ p.context = c) : EndsWith o moments c := by
  obtain ⟨p, hp, rfl⟩ := hlast
  obtain ⟨front, hmoments⟩ := List.getLast?_eq_some_iff.mp hp
  refine ⟨p, hp, rfl, hwithin p (List.mem_of_getLast? hp), fun hgranted => ?_⟩
  have hcounts := htracked front p [] hmoments hgranted
  rwa [← hmoments] at hcounts

/-- What the operations leave in a context when they come back: after a search every node has its
path to the start node, and after both operations the counters are those of the whole run. -/
theorem operations_leave_behind (c : Context) (hc : LeftBehind c) (fuel : ℕ)
    (adapter : Option (Adapter σ)) (start : StateId) (options : Option Options) (world : σ) :
    (∀ r c' world', atrinikPfSearch fuel (some c) adapter start options world =
        some (r, some c', world') →
      (∀ i < c'.nodeCount, ∃ chain, ParentChain c' i chain ∧ WritesPath c' i chain) ∧
      EndsWith (options.getD atrinikPfOptionsInit)
        (atrinikPfSearchMoments fuel c adapter start options world) c') ∧
    ∀ r c' world', atrinikPfReachable fuel (some c) adapter start options world =
        some (r, some c', world') →
      EndsWith (options.getD atrinikPfOptionsInit)
        (atrinikPfReachableMoments fuel c adapter start options world) c' := by
  refine ⟨fun r c' world' h => ⟨?_, ?_⟩, fun r c' world' h => ?_⟩
  · -- the last point of the trace is the context that is left behind
    obtain ⟨p, hp, rfl⟩ := atrinikPfSearchTrace_getLast fuel c adapter start options world r world' h
    obtain ⟨front, htrace⟩ := List.getLast?_eq_some_iff.mp hp
    exact chain_of_split hc.shape fuel adapter start options world front [] p htrace
  · exact .of_tracked (atrinikPfSearch_within fuel c adapter start options world).1
      (search_tracked c hc.shape fuel adapter start options world)
      (searchMoments_getLast fuel c adapter start options world r c' world' h)
  · exact .of_tracked (atrinikPfReachable_within fuel c adapter start options world).1
      (reachable_tracked c hc.shape fuel adapter start options world)
      (reachableMoments_getLast fuel c adapter start options world r c' world' h)

/-- The contexts after a search and a traversal of the sample graph. -/
theorem operations_leave_behind_detour :
    ∃ found listed : Context, (∀ i < 4, ∃ chain, ParentChain found i chain) ∧
      EndsWith atrinikPfOptionsInit (atrinikPfSearchMoments 9 (atrinikPfContextCreate fun _ => true)
        (some (detour (· = 4) fun _ => 0).toAdapter) 0 none 0) found ∧
      EndsWith atrinikPfOptionsInit (atrinikPfReachableMoments 9
        (atrinikPfContextCreate fun _ => true) (some (detour (· = 4) fun _ => 0).toAdapter) 0
        none 0) listed ∧
      found.metrics.peakFrontier = 2 ∧ listed.metrics.peakFrontier = 2 := by
  have hsearch : ((atrinikPfSearch 9 (some (atrinikPfContextCreate fun _ => true))
      (some (detour (· = 4) fun _ => 0).toAdapter) 0 none 0).bind fun out => out.2.1).map
        (fun c => (c.nodeCount, c.metrics.peakFrontier)) = some (4, 2) := by decide +kernel
  have hreachable : ((atrinikPfReachable 9 (some (atrinikPfContextCreate fun _ => true))
      (some (detour (· = 4) fun _ => 0).toAdapter) 0 none 0).bind fun out => out.2.1).map
        (fun c => c.metrics.peakFrontier) = some 2 := by decide +kernel
  obtain ⟨found, hfound, hnumbers⟩ := Option.map_eq_some_iff.mp hsearch
  obtain ⟨⟨r, out, w⟩, hrun, rfl⟩ := Option.bind_eq_some_iff.mp hfound
  obtain ⟨listed, hlisted, hpeak⟩ := Option.map_eq_some_iff.mp hreachable
  obtain ⟨⟨r', out', w'⟩, hrun', rfl⟩ := Option.bind_eq_some_iff.mp hlisted
  obtain ⟨hcount, hpeak'⟩ := Prod.mk.inj hnumbers
  obtain ⟨hends, htraversed⟩ := operations_leave_behind (atrinikPfContextCreate fun _ => true)
    (.created _) 9 (some (detour (· = 4) fun _ => 0).toAdapter) 0 none 0
  obtain ⟨hchains, hend⟩ := hends r found w hrun
  refine ⟨found, listed, fun i hi => ?_, hend, htraversed r' listed w' hrun', hpeak', hpeak⟩
  obtain ⟨chain, hchain, -⟩ := hchains i (hcount ▸ hi)
  exact ⟨chain, hchain⟩

end End

end LibAtrinik.Pathfinding

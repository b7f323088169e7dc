import LibAtrinik.PathfindingOptimal

namespace LibAtrinik.Pathfinding

open SearchForest LabelledWalk

variable {a : PureAdapter} {algorithm : Algorithm} {start : StateId} {t : Transition} {c : ℕ}
  {ts : List Transition} {nodes nodes' : List PfNode}

/-- Between two rounds the children of an open node are all stale. -/
def Overtaken (a : PureAdapter) (algorithm : Algorithm) (nodes : List PfNode) : Prop :=
  ∀ i p, i < nodes.length → (nodeAt nodes i).parent = some p → IsOpen nodes p →
    Stale algorithm a nodes i p

/-- While node `c` is being expanded, after the transitions `ts`, so are its own children, apart
from those that the transitions have reached. -/
def OvertakenDuring (a : PureAdapter) (algorithm : Algorithm) (nodes : List PfNode) (c : ℕ)
    (ts : List Transition) : Prop :=
  ∀ i p, i < nodes.length → (nodeAt nodes i).parent = some p → IsOpen nodes p ∨ p = c →
    Stale algorithm a nodes i p ∨ p = c ∧ ∃ t ∈ ts, Linked a algorithm nodes i c t

theorem Stale.written {k i p : ℕ} (hs : Stale algorithm a nodes i p)
    (h : Written a algorithm c t nodes nodes' k) (hik : i ≠ k) :
    Stale algorithm a nodes' i p := by
  obtain ⟨t', hl, hlt⟩ := hs
  refine ⟨t', hl.written h hik, ?_⟩
  rw [h.node i, if_neg hik]
  exact lt_of_le_of_lt (Nat.add_le_add_right (h.cost_le p hl.bound) _) hlt

/-- A node that is written overtakes its children, for it has become cheaper. -/
theorem Written.stale {k i : ℕ} (h : Written a algorithm c t nodes nodes' k)
    (hs : Sound a algorithm start nodes) (hi : i < nodes.length) (hik : i ≠ k)
    (hp : (nodeAt nodes i).parent = some k) : Stale algorithm a nodes' i k := by
  obtain ⟨t', hl⟩ := hs.link_of_parent i k hi hp
  refine ⟨t', hl.written h hik, ?_⟩
  rw [h.node i, if_neg hik, h.node k, if_pos rfl]
  refine lt_of_lt_of_le (Nat.add_lt_add_right ?_ _) hl.cost
  rcases h.better with ⟨hk, _⟩ | ⟨_, _, hlt⟩
  · -- a new node has no children
    exact absurd hl.bound (by omega)
  · exact hlt

theorem OvertakenDuring.relax (ho : OvertakenDuring a algorithm nodes c ts)
    (h : Midway a algorithm start nodes c ts) (ht : t ∈ a.transitions (nodeAt nodes c).state)
    (hr : Relax a algorithm c t nodes nodes') :
    OvertakenDuring a algorithm nodes' c (ts ++ [t]) := by
  have hs := h.toSound
  rcases hr.written hs with ⟨rfl, _⟩ | ⟨k, hw⟩
  · intro i p hi hp hcond
    rcases ho i p hi hp hcond with hst | ⟨hpc, t', ht', hl⟩
    · exact Or.inl hst
    · exact Or.inr ⟨hpc, t', List.mem_append_left _ ht', hl⟩
  · intro i p hi hp hcond
    by_cases hik : i = k
    · -- the transition has just reached node `i`
      right
      have hl := hw.linked h.bound ht
      rw [← hik] at hl
      exact ⟨Option.some.inj (hp.symm.trans hl.parent), t, by simp, hl⟩
    · have hi' := hw.old hi hik
      rw [hw.node i, if_neg hik] at hp
      by_cases hpk : p = k
      · subst hpk
        exact Or.inl (hw.stale hs hi' hik hp)
      · have hcond' : IsOpen nodes p ∨ p = c := by
          rcases hcond with ⟨hlt, hopen⟩ | hpc
          · rw [hw.node p, if_neg hpk] at hopen
            exact Or.inl ⟨hw.old hlt hpk, hopen⟩
          · exact Or.inr hpc
        rcases ho i p hi' hp hcond' with hst | ⟨hpc, t', ht', hl⟩
        · exact Or.inl (hst.written hw hik)
        · exact Or.inr ⟨hpc, t', List.mem_append_left _ ht', hl.written hw hik⟩

theorem OvertakenDuring.relaxAll {done : List Transition}
    (ho : OvertakenDuring a algorithm nodes c done) (h : Midway a algorithm start nodes c done)
    (hts : ∀ t ∈ ts, t ∈ a.transitions (nodeAt nodes c).state)
    (hr : RelaxAll a algorithm c ts nodes nodes') :
    OvertakenDuring a algorithm nodes' c (done ++ ts) := by
  induction hr generalizing done with
  | nil nodes => rwa [List.append_nil]
  | cons t ts nodes mid nodes' hr _ ih =>
    obtain ⟨hmid, hstate⟩ := h.relax (hts t List.mem_cons_self) hr
    have hrest := ih (ho.relax h (hts t List.mem_cons_self) hr) hmid fun t' ht' => by
      rw [hstate]
      exact hts t' (List.mem_cons_of_mem t ht')
    rwa [List.append_assoc] at hrest

/-- The children of a node that is taken from the frontier have not seen its cost. -/
theorem Overtaken.close (ho : Overtaken a algorithm nodes) (hc : IsOpen nodes c) :
    OvertakenDuring a algorithm (closeAt nodes c) c [] := by
  intro i p hi hp hcond
  left
  rw [closeAt_length] at hi
  have hp' : (nodeAt nodes i).parent = some p := by
    rw [nodeAt_closeAt nodes c i hc.1] at hp
    split_ifs at hp with hic
    · rw [hic]
      exact hp
    · exact hp
  have hopen : IsOpen nodes p := by
    rcases hcond with ⟨hlt, hopen⟩ | rfl
    · rw [nodeAt_closeAt nodes c p hc.1] at hopen
      split_ifs at hopen with hpc
      rw [closeAt_length] at hlt
      exact ⟨hlt, hopen⟩
    · exact hc
  obtain ⟨t', hl, hlt⟩ := ho i p hi hp' hopen
  refine ⟨t', hl.closeAt c hc.1, ?_⟩
  rw [closeAt_cost nodes c p hc.1, closeAt_cost nodes c i hc.1]
  exact hlt

theorem OvertakenDuring.overtaken (ho : OvertakenDuring a algorithm nodes c ts)
    (hc : ¬IsOpen nodes c) : Overtaken a algorithm nodes := by
  intro i p hi hp hopen
  rcases ho i p hi hp (Or.inl hopen) with hst | ⟨rfl, _⟩
  · exact hst
  · exact absurd hopen hc

/-- A whole round. -/
theorem Overtaken.expands (ho : Overtaken a algorithm nodes) (h : Coherent a algorithm start nodes)
    (hexp : Expands a algorithm c nodes nodes') : Overtaken a algorithm nodes' := by
  have hstate := closeAt_state nodes c c hexp.next.1.1
  have hts (t : Transition) (ht : t ∈ a.transitions (nodeAt nodes c).state) :
      t ∈ a.transitions (nodeAt (closeAt nodes c) c).state := by rwa [hstate]
  have hmid := h.close hexp.next hexp.noGoal
  obtain ⟨hend, _⟩ := hmid.relaxAll hts hexp.relaxed
  exact ((ho.close hexp.next.1).relaxAll hmid hts hexp.relaxed).overtaken hend.forest.active

/-- The link from node `i` to its parent `p` is up to date: `p` does not wait for another
expansion, and if its expansion was cut short, the transition of the link came before that. -/
def LinkRenewed (a : PureAdapter) (algorithm : Algorithm) (nodes : List PfNode)
    (cut : Option (ℕ × List Transition)) (i p : ℕ) : Prop :=
  ¬IsOpen nodes p ∧ ∀ emitted, cut = some (p, emitted) →
    ∃ t ∈ emitted, Linked a algorithm nodes i p t

/-- A link is exact or stale, and which of the two depends on its parent. -/
theorem Coherent.link_of_interrupted {cut : Option (ℕ × List Transition)}
    (h : Coherent a algorithm start nodes) (ho : Overtaken a algorithm nodes)
    (hcut : Interrupted a algorithm nodes nodes' cut) (i p : ℕ) (hi : i < nodes'.length)
    (hp : (nodeAt nodes' i).parent = some p) :
    (LinkRenewed a algorithm nodes' cut i p → ∃ t, Linked a algorithm nodes' i p t ∧
      (nodeAt nodes' i).cost = (nodeAt nodes' p).cost+stepCost algorithm t) ∧
    (¬LinkRenewed a algorithm nodes' cut i p → Stale algorithm a nodes' i p) := by
  cases hcut with
  | before =>
    obtain ⟨t, hl⟩ := h.toSound.link_of_parent i p hi hp
    constructor
    · rintro ⟨hclosed, _⟩
      have hc : (nodeAt nodes p).closed = true := by
        by_contra hopen
        exact hclosed ⟨hl.bound, by simpa using hopen⟩
      exact ⟨t, hl, hl.exact_of_settled h.toSound hi ((h.done p hl.bound hc).2 t hl.edge)⟩
    · intro hno
      by_cases hopen : IsOpen nodes p
      · exact ho i p hi hp hopen
      · exact absurd ⟨hopen, fun _ he => nomatch he⟩ hno
  | during c _ hnext hgoal done rest htrans hrelax =>
    have hts (t : Transition) (ht : t ∈ done) :
        t ∈ a.transitions (nodeAt (closeAt nodes c) c).state := by
      rw [closeAt_state nodes c c hnext.1.1, htrans]
      exact List.mem_append_left rest ht
    have hmid := h.close hnext hgoal
    obtain ⟨hend, _⟩ := hmid.relaxAll hts hrelax
    have hover := (ho.close hnext.1).relaxAll hmid hts hrelax
    rw [List.nil_append] at hend hover
    obtain ⟨t, hl⟩ := hend.toSound.link_of_parent i p hi hp
    constructor
    · rintro ⟨hclosed, hemitted⟩
      by_cases hpc : p = c
      · subst hpc
        obtain ⟨t', ht', hl'⟩ := hemitted done rfl
        exact ⟨t', hl', hl'.exact_of_settled hend.toSound hi (hend.settled t' ht')⟩
      · have hc : (nodeAt nodes' p).closed = true := by
          by_contra hopen
          exact hclosed ⟨hl.bound, by simpa using hopen⟩
        exact ⟨t, hl, hl.exact_of_settled hend.toSound hi
          ((hend.done p hl.bound hc hpc).2 t hl.edge)⟩
    · intro hno
      by_cases hcond : IsOpen nodes' p ∨ p = c
      · rcases hover i p hi hp hcond with hst | ⟨rfl, t', ht', hl'⟩
        · exact hst
        · refine absurd ⟨hend.forest.active, ?_⟩ hno
          intro emitted he
          obtain ⟨_, rfl⟩ := Prod.mk.inj (Option.some.inj he)
          exact ⟨t', ht', hl'⟩
      · refine absurd ⟨fun hopen => hcond (Or.inl hopen), ?_⟩ hno
        intro emitted he
        obtain ⟨rfl, _⟩ := Prod.mk.inj (Option.some.inj he)
        exact absurd (Or.inr rfl) hcond

/-- Every link of the chain to node `best` is up to date. -/
def FinishCall.Renewed (call : FinishCall) (a : PureAdapter) (algorithm : Algorithm) (best : ℕ) :
    Prop :=
  ∀ i p, i = best ∨ (forestOf call.table.nodes).Above i best →
    (nodeAt call.table.nodes i).parent = some p →
    LinkRenewed a algorithm call.table.nodes call.cut i p

/-- The steps of a result are those of a walk from the start that costs what the result says. -/
def PureAdapter.Describes (a : PureAdapter) (algorithm : Algorithm) (start : StateId)
    (r : SearchResult) : Prop :=
  ∃ ts v, a.Walk start ts v ∧ r.steps = ⟨start, 0⟩ :: ts.map Transition.step ∧
    cost (stepCost algorithm) ts = r.metrics.totalCost

/-- Where data tell transitions apart, the steps of a walk determine its cost. -/
theorem PureAdapter.Labelled.cost_eq (h : a.Labelled algorithm) (u v v' : StateId)
    (ts ts' : List Transition) (hw : a.Walk u ts v) (hw' : a.Walk u ts' v')
    (he : ts.map Transition.step = ts'.map Transition.step) :
    cost (stepCost algorithm) ts = cost (stepCost algorithm) ts' := by
  induction ts generalizing u ts' with
  | nil =>
    cases ts' with
    | nil => rfl
    | cons t' ts' => cases he
  | cons t ts ih =>
    cases ts' with
    | nil => cases he
    | cons t' ts' =>
      obtain ⟨ht, hw⟩ := hw
      obtain ⟨ht', hw'⟩ := hw'
      obtain ⟨hstep, hrest⟩ := List.cons.inj he
      have hstate : t.state = t'.state := congrArg Step.state hstep
      have hdata : t.data = t'.data := congrArg Step.data hstep
      rw [cost_cons, cost_cons, h u t ht t' ht' hstate hdata]
      rw [← hstate] at hw'
      rw [ih t.state ts' hw hw' hrest]

/-- A single node has no children. -/
theorem overtaken_start (a : PureAdapter) (options : Options) (polls : ℕ) (start : StateId) :
    Overtaken a options.algorithm (Table.start a.toAdapter options polls start).1.nodes := by
  rw [(start_nodes a options polls start).1]
  intro i p hi hp
  obtain rfl : i = 0 := by simpa using hi
  cases hp

/-- A partial path, as the call of `pf_finish_search` makes it. -/
theorem search_partial (a : PureAdapter) (options : Options) (start : StateId)
    (fuel polls polls' : ℕ) (r : SearchResult)
    (h : Table.search fuel (some a.toAdapter) start options polls = some (r, polls'))
    (hp : r.status = .partialPath) :
    ∃ (table : Table) (call : FinishCall) (best : ℕ), a.finishCall options start fuel polls = some call ∧
      Coherent a options.algorithm start table.nodes ∧ Overtaken a options.algorithm table.nodes ∧
      Interrupted a options.algorithm table.nodes call.table.nodes call.cut ∧
      best < call.table.nodes.length ∧ call.table.partialNode = some best ∧
      ∃ steps, pathTo call.table.nodes call.table.nodes.length (some best) = some steps ∧
        r.steps = clearFirst steps ∧ r.metrics.totalCost = (nodeAt call.table.nodes best).cost := by
  rcases search_last a options start fuel polls polls' r h with ⟨_, hinv⟩ |
    ⟨_, _, call, hcall, _, _, _, hout⟩
  · rw [hp] at hinv
    cases hinv
  obtain ⟨table, hco, hover, hb, hround⟩ := finishCall_last a options start fuel polls call hcall
    (Overtaken a options.algorithm) (overtaken_start a options polls start)
    (fun nodes nodes' i hco ho hexp => ho.expands hco hexp)
  obtain ⟨r', hr', heq⟩ := Option.map_eq_some_iff.mp hout
  obtain rfl : r' = r := congrArg Prod.fst heq
  refine ⟨table, call, ?_⟩
  -- a call without a goal node that turns its status into `partialPath`
  have hpartial (status : Status) (hne : status ≠ .partialPath) (hstatus : call.status = status)
      (hnode : call.node = none) (hbest : BestBelow call.table) :
      ∃ best, best < call.table.nodes.length ∧ call.table.partialNode = some best ∧
        ∃ steps, pathTo call.table.nodes call.table.nodes.length (some best) = some steps ∧
          r'.steps = clearFirst steps ∧
          r'.metrics.totalCost = (nodeAt call.table.nodes best).cost := by
    rw [hnode] at hr'
    rcases finish_none_cases _ _ _ _ _ hr' with rfl | ⟨best, hpn, _, _, hpath⟩
    · exact absurd (hstatus.symm.trans hp) hne
    · obtain ⟨steps, hsteps, rfl⟩ := finishPath_eq_some _ _ _ _ hpath
      exact ⟨best, hbest best hpn, hpn, steps, hsteps, rfl, rfl⟩
  cases hround with
  | found i polls hnext hgoal =>
    obtain ⟨steps, _, rfl⟩ := finishPath_eq_some _ _ _ _ hr'
    cases hp
  | exhausted polls hnone =>
    obtain ⟨best, hbest⟩ := hpartial .noPath (by decide) rfl rfl hb
    exact ⟨best, hcall, hco, hover, .before, hbest⟩
  | halted last cut polls status termination hreason hbest hcut =>
    obtain ⟨best, hbest⟩ := hpartial status (by cases hreason <;> decide) rfl rfl hbest
    exact ⟨best, hcall, hco, hover, hcut, hbest⟩

/-- A partial path is always a walk from the start. It costs what the result says if every link
of its chain is up to date when the search ends, and only then if the data of a transition tell
what it costs. -/
theorem partial_cost_iff_renewed (a : PureAdapter) (c : Context) (hc : LeftBehind c) (fuel : ℕ)
    (start : StateId) (options : Option Options) (polls polls' : ℕ) (r : SearchResult)
    (c' : Option Context)
    (h : atrinikPfSearch fuel (some c) (some a.toAdapter) start options polls =
      some (r, c', polls'))
    (hp : r.status = .partialPath) :
    ∃ call best, a.finishCall (options.getD atrinikPfOptionsInit) start fuel polls = some call ∧
      call.table.partialNode = some best ∧
      (∃ ts v, a.Walk start ts v ∧ r.steps = ⟨start, 0⟩ :: ts.map Transition.step) ∧
      (call.Renewed a (options.getD atrinikPfOptionsInit).algorithm best →
        a.Describes (options.getD atrinikPfOptionsInit).algorithm start r) ∧
      (a.Labelled (options.getD atrinikPfOptionsInit).algorithm →
        (a.Describes (options.getD atrinikPfOptionsInit).algorithm start r ↔
          call.Renewed a (options.getD atrinikPfOptionsInit).algorithm best)) := by
  have htable := search_of_context c hc fuel _ start options polls polls' r c' h
    (by rw [hp]; decide)
  generalize options.getD atrinikPfOptionsInit = options at htable ⊢
  obtain ⟨table, call, best, hcall, hco, hover, hcut, hbest, hpn, steps, hsteps, hrs, htotal⟩ :=
    search_partial a options start fuel polls polls' r htable hp
  obtain ⟨hs, hg⟩ := hco.interrupted hcut
  obtain ⟨ts, hwalk, rfl, _, hexact, hstale, _⟩ := pathTo_walk hs hg _ best hbest steps hsteps
  have hrs' : r.steps = ⟨start, 0⟩ :: ts.map Transition.step := hrs
  have hlt (i : ℕ) (hi : i = best ∨ (forestOf call.table.nodes).Above i best) :
      i < call.table.nodes.length := by
    rcases hi with rfl | hi
    · exact hbest
    · exact hs.above_lt hi hbest
  have hlink (i p : ℕ) (hi : i = best ∨ (forestOf call.table.nodes).Above i best)
      (hparent : (nodeAt call.table.nodes i).parent = some p) :=
    hco.link_of_interrupted hover hcut i p (hlt i hi) hparent
  have hright (hr : call.Renewed a options.algorithm best) :
      a.Describes options.algorithm start r := by
    refine ⟨ts, _, hwalk, hrs', ?_⟩
    rw [htotal]
    apply hexact
    intro i hi p hparent
    exact (hlink i p hi hparent).1 (hr i p hi hparent)
  refine ⟨call, best, hcall, hpn, ⟨ts, _, hwalk, hrs'⟩, hright, fun hlab => ⟨?_, hright⟩⟩
  -- one stale link makes the walk cheaper than the node
  rintro ⟨ts', v, hwalk', hsteps', hcost⟩ i p hi hparent
  by_contra hno
  have hless := hstale hlab ⟨i, p, hi, (hlink i p hi hparent).2 hno⟩
  have hsame : ts'.map Transition.step = ts.map Transition.step :=
    (List.cons.inj (hsteps'.symm.trans hrs')).2
  rw [hlab.cost_eq start v _ ts' ts hwalk' hwalk hsame] at hcost
  omega

/-- Node 1 is first reached by the long transition and expanded, and then opened again. -/
def lateHeuristic (state : StateId) : UInt64 := if state = 2 then 2 else if state = 4 then 9 else 0

theorem detour_labelled (goal : StateId → Bool) (heuristic : StateId → UInt64)
    (algorithm : Algorithm) :
    (detour goal heuristic).Labelled algorithm := by
  intro s t ht t' ht' hstate _
  unfold detour at ht ht'
  dsimp only at ht ht'
  suffices h : t = t' by rw [h]
  split_ifs at ht ht'
  · rcases List.mem_pair.mp ht with rfl | rfl <;> rcases List.mem_pair.mp ht' with rfl | rfl
    · rfl
    · cases hstate
    · cases hstate
    · rfl
  · rw [List.mem_singleton.mp ht, List.mem_singleton.mp ht']
  · rw [List.mem_singleton.mp ht, List.mem_singleton.mp ht']
  · cases ht

/-- The sample graph with a budget of three expansions: the partial path over 2 costs 3, and the
result says 4. -/
theorem partial_cost_not_described :
    ∃ r c' polls', atrinikPfSearch 9 (some (atrinikPfContextCreate fun _ => true))
        (some (detour (fun _ => false) lateHeuristic).toAdapter) 0
        (some { algorithm := .astar, maxExpanded := 3, returnPartial := true }) 0 =
        some (r, c', polls') ∧
      r.status = .partialPath ∧ r.termination = .limit ∧ r.metrics.totalCost = 4 ∧
      ¬(detour (fun _ => false) lateHeuristic).Describes .astar 0 r := by
  have hrun : (atrinikPfSearch 9 (some (atrinikPfContextCreate fun _ => true))
      (some (detour (fun _ => false) lateHeuristic).toAdapter) 0
      (some { algorithm := .astar, maxExpanded := 3, returnPartial := true }) 0).map (·.1) =
      some { status := .partialPath, termination := .limit
             steps := [⟨0, 0⟩, ⟨2, 12⟩, ⟨1, 21⟩, ⟨4, 14⟩]
             metrics := { expanded := 3, generated := 4, examinedTransitions := 4
                          peakFrontier := 2, totalCost := 4 } } := by
    decide +kernel
  obtain ⟨⟨r, c', polls'⟩, hx, rfl⟩ := Option.map_eq_some_iff.mp hrun
  refine ⟨_, c', polls', hx, rfl, rfl, rfl, ?_⟩
  rintro ⟨ts, v, hw, hsteps, hcost⟩
  have hwalk : (detour (fun _ => false) lateHeuristic).Walk 0
      [⟨2, 1, 12⟩, ⟨1, 1, 21⟩, ⟨4, 1, 14⟩] 4 := by
    refine ⟨?_, ?_, ?_, rfl⟩ <;> decide
  have hsame := (detour_labelled (fun _ => false) lateHeuristic .astar).cost_eq 0 v 4 ts _ hw
    hwalk (List.cons.inj hsteps).2.symm
  rw [hsame] at hcost
  exact absurd hcost (by decide)

/-- With one expansion less the path to 4 is the old one, and its cost is right. -/
theorem partial_cost_iff_renewed_detour :
    ∃ call best, (detour (fun _ => false) lateHeuristic).finishCall
        { algorithm := .astar, maxExpanded := 2, returnPartial := true } 0 9 0 = some call ∧
      call.table.partialNode = some best ∧
      call.Renewed (detour (fun _ => false) lateHeuristic) .astar best := by
  have hrun : (atrinikPfSearch 9 (some (atrinikPfContextCreate fun _ => true))
      (some (detour (fun _ => false) lateHeuristic).toAdapter) 0
      (some { algorithm := .astar, maxExpanded := 2, returnPartial := true }) 0).map (·.1) =
      some { status := .partialPath, termination := .limit
             steps := [⟨0, 0⟩, ⟨1, 11⟩, ⟨4, 14⟩]
             metrics := { expanded := 2, generated := 4, examinedTransitions := 3
                          peakFrontier := 2, totalCost := 4 } } := by
    decide +kernel
  obtain ⟨⟨r, c', polls'⟩, hx, rfl⟩ := Option.map_eq_some_iff.mp hrun
  obtain ⟨call, best, hcall, hbest, _, _, hiff⟩ := partial_cost_iff_renewed
    (detour (fun _ => false) lateHeuristic) (atrinikPfContextCreate fun _ => true) (.created _) 9 0
    (some { algorithm := .astar, maxExpanded := 2, returnPartial := true }) 0 polls' _ c' hx rfl
  refine ⟨call, best, hcall, hbest, (hiff (detour_labelled _ _ _)).mp ?_⟩
  refine ⟨[⟨1, 3, 11⟩, ⟨4, 1, 14⟩], 4, ⟨?_, ?_, rfl⟩, rfl, rfl⟩ <;> decide

end LibAtrinik.Pathfinding

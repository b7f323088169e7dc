import LibAtrinik.QuicRace

namespace LibAtrinik.Quic

open Rendezvous

variable {n : ℕ} {plan : Fin n → List Entry} {initial : Fin n} {s s' : State n}

/-- The selection hands on or destroys each socket that it finds. -/
theorem selectLoop_count (results : List (Option (ℕ × Entry))) (selected : Option (ℕ × Entry))
    (destroyed : List ℕ) (x : ℕ) :
    ((selectLoop results selected destroyed).1.map Prod.fst).toList.count x+
        (selectLoop results selected destroyed).2.count x =
      (selected.map Prod.fst).toList.count x+destroyed.count x+
        (results.map fun r => (r.map Prod.fst).toList.count x).sum := by
  induction results generalizing selected destroyed with
  | nil => rfl
  | cons result results ih =>
    rw [List.map_cons, List.sum_cons]
    cases result with
    | none =>
      rw [selectLoop, ih]
      simp
    | some result =>
      cases selected with
      | none =>
        rw [selectLoop, ih]
        simp only [Option.map_some, Option.map_none, Option.toList, List.count_nil]
        omega
      | some selected =>
        rw [selectLoop]
        split_ifs
        · rw [ih, List.count_append]
          simp only [Option.map_some, Option.toList]
          omega
        · rw [ih, List.count_append]
          simp only [Option.map_some, Option.toList]
          omega

/-- The selection finds nothing where there is nothing, and else a result of least rank. -/
theorem selectLoop_least (results : List (Option (ℕ × Entry))) (selected : Option (ℕ × Entry))
    (destroyed : List ℕ) :
    match (selectLoop results selected destroyed).1 with
    | none => selected = none ∧ ∀ r ∈ results, r = none
    | some best => (selected = some best ∨ some best ∈ results) ∧
        ∀ r, selected = some r ∨ some r ∈ results → best.2.rank ≤ r.2.rank := by
  induction results generalizing selected destroyed with
  | nil =>
    cases selected with
    | none => exact ⟨rfl, by simp⟩
    | some selected => exact ⟨Or.inl rfl, by simp⟩
  | cons result results ih =>
    cases result with
    | none =>
      rw [selectLoop]
      have hrest := ih selected destroyed
      revert hrest
      cases (selectLoop results selected destroyed).1 <;> simp
    | some result =>
      cases selected with
      | none =>
        rw [selectLoop]
        have hrest := ih (some result) destroyed
        revert hrest
        cases (selectLoop results (some result) destroyed).1 with
        | none => simp
        | some best =>
          rintro ⟨hbest, hleast⟩
          refine ⟨Or.inr ?_, ?_⟩
          · rcases hbest with hbest | hbest
            · rw [hbest]
              exact List.mem_cons_self
            · exact List.mem_cons_of_mem _ hbest
          · rintro r (hr | hr)
            · cases hr
            · rcases List.mem_cons.mp hr with hr | hr
              · exact hleast r (Or.inl hr.symm)
              · exact hleast r (Or.inr hr)
      | some selected =>
        rw [selectLoop]
        split_ifs with hlt
        · have hrest := ih (some result) (destroyed ++ [selected.1])
          revert hrest
          cases (selectLoop results (some result) (destroyed ++ [selected.1])).1 with
          | none => simp
          | some best =>
            rintro ⟨hbest, hleast⟩
            have hresult := hleast result (Or.inl rfl)
            refine ⟨Or.inr ?_, ?_⟩
            · rcases hbest with hbest | hbest
              · rw [hbest]
                exact List.mem_cons_self
              · exact List.mem_cons_of_mem _ hbest
            · rintro r (hr | hr)
              · obtain rfl := Option.some.inj hr
                omega
              · rcases List.mem_cons.mp hr with hr | hr
                · exact hleast r (Or.inl hr.symm)
                · exact hleast r (Or.inr hr)
        · have hrest := ih (some selected) (destroyed ++ [result.1])
          revert hrest
          cases (selectLoop results (some selected) (destroyed ++ [result.1])).1 with
          | none => simp
          | some best =>
            rintro ⟨hbest, hleast⟩
            have hselected := hleast selected (Or.inl rfl)
            refine ⟨hbest.imp_right (List.mem_cons_of_mem _), ?_⟩
            rintro r (hr | hr)
            · exact hleast r (Or.inl hr)
            · rcases List.mem_cons.mp hr with hr | hr
              · obtain rfl := Option.some.inj hr
                omega
              · exact hleast r (Or.inr hr)

/-- The task has been called, by its thread or by the creating thread to the end. -/
def State.Entered (s : State n) (i : Fin n) : Prop :=
  (s.task i).phase ≠ .idle ∧ (s.started i = true ∨ (s.task i).phase = .done)

/-- Which tasks have been called where `socket_quic_client_create` is. -/
def State.Stage (s : State n) : Prop :=
  match s.main with
  | .opening => True
  | .creating k => k ≤ n ∧ ∀ i : Fin n,
      (i < k → s.Entered i) ∧ (k ≤ i → (s.task i).phase = .idle)
  | .inline k => ∃ i : Fin n, k = i ∧ (s.task i).phase ≠ .idle ∧ ∀ j : Fin n,
      (j < i → s.Entered j) ∧ (i < j → (s.task j).phase = .idle)
  | .waiting => ∀ i, s.Entered i
  | .joining => ∀ i, s.Entered i
  | .returned _ => ∀ i, (s.task i).phase = .idle ∨ (s.task i).phase = .done

/-- How often a socket is held: by the tasks, and in the end by the caller. -/
def State.holding (s : State n) (x : ℕ) : ℕ :=
  match s.main with
  | .returned selected => selected.toList.count x
  | _ => ∑ i, (s.task i).held.count x

/-- What is returned fits the handshakes that have succeeded. -/
def Answers (succeeded : List (Entry × ℕ)) : Option ℕ → Prop
  | none => succeeded = []
  | some x => ∃ e, (e, x) ∈ succeeded ∧ ∀ e' x', (e', x') ∈ succeeded → e.rank ≤ e'.rank

structure Inv (plan : Fin n → List Entry) (s : State n) : Prop where
  opening : s.main = .opening → s = start plan
  sound : ∀ i, (s.task i).Sound (plan i)
  stage : s.Stage
  account : ∀ x, s.holding x+s.destroyed.count x = if x < s.owners.length then 1 else 0
  owner : ∀ i x, x ∈ (s.task i).held → s.owners[x]? = some i
  use : ∀ i x, (i, x) ∈ s.uses → s.owners[x]? = some i
  success : ∀ e x, (e, x) ∈ s.succeeded ↔ ∃ i, (s.task i).result = some (x, e)
  complete : s.completed = (Finset.univ.filter fun i => (s.task i).phase = .done).card
  answer : ∀ selected, s.main = .returned selected → Answers s.succeeded selected

theorem inv_start (plan : Fin n → List Entry) : Inv plan (start plan) where
  sound i := ⟨List.suffix_rfl, by simp [start], by simp [start], by simp [start], by simp [start]⟩
  opening := fun _ => rfl
  stage := trivial
  account x := by simp [State.holding, start, Task.held]
  owner := by simp [start, Task.held]
  use := by simp [start]
  success := by simp [start]
  complete := by simp [start]
  answer := by simp [start]

/-- A sum over the tasks after one of them has changed. -/
theorem sum_update (f : Task → ℕ) (task : Fin n → Task) (i : Fin n) (t : Task) :
    (∑ j, f (Function.update task i t j))+f (task i) = (∑ j, f (task j))+f t := by
  have hrest : ∑ j ∈ Finset.univ.erase i, f (Function.update task i t j) =
      ∑ j ∈ Finset.univ.erase i, f (task j) := by
    apply Finset.sum_congr rfl
    intro j hj
    rw [Function.update_of_ne (Finset.ne_of_mem_erase hj)]
  have hold := Finset.sum_erase_add Finset.univ (fun j => f (task j)) (Finset.mem_univ i)
  have hnew := Finset.sum_erase_add Finset.univ (fun j => f (Function.update task i t j))
    (Finset.mem_univ i)
  rw [Function.update_self, hrest] at hnew
  omega

theorem holding_eq (h : ∀ selected, s.main ≠ .returned selected) (x : ℕ) :
    s.holding x = ∑ i, (s.task i).held.count x := by
  unfold State.holding
  split
  · rename_i selected hmain
    exact absurd hmain (h selected)
  · rfl

/-- No task moves before the first thread is created or after the end. -/
theorem Inv.running (h : Inv plan s) {i : Fin n} (hidle : (s.task i).phase ≠ .idle)
    (hdone : (s.task i).phase ≠ .done) :
    s.main ≠ .opening ∧ ∀ selected, s.main ≠ .returned selected := by
  constructor
  · intro hmain
    rw [h.opening hmain] at hidle
    exact hidle rfl
  · intro selected hmain
    have hstage := h.stage
    rw [State.Stage, hmain] at hstage
    exact (hstage i).elim hidle hdone

theorem State.Entered.after {i j : Fin n} {t : Task} {effect : Effect} (h : s.Entered j)
    (hidle : t.phase ≠ .idle) (hdone : (s.task i).phase ≠ .done) :
    (s.after i t effect).Entered j := by
  by_cases hj : j = i
  · subst hj
    have hstarted : s.started j = true := h.2.resolve_right hdone
    refine ⟨?_, Or.inl hstarted⟩
    simpa only [State.after, Function.update_self] using hidle
  · simpa only [State.Entered, State.after, Function.update_of_ne hj] using h

theorem Inv.stage_after (h : Inv plan s) {i : Fin n} {t : Task} {effect : Effect}
    (hstep : TaskStep s.cancelled s.owners.length (s.task i) t effect) :
    (s.after i t effect).Stage := by
  obtain ⟨hidle, hdone, hidle', _⟩ := hstep.phase_ne
  obtain ⟨hopening, hreturned⟩ := h.running hidle hdone
  have hentered (j : Fin n) (hj : s.Entered j) : (s.after i t effect).Entered j :=
    hj.after hidle' hdone
  have hother (j : Fin n) (hj : (s.task j).phase = .idle) :
      ((s.after i t effect).task j).phase = .idle := by
    have hne : j ≠ i := by
      rintro rfl
      exact hidle hj
    simpa only [State.after, Function.update_of_ne hne] using hj
  have hstage := h.stage
  unfold State.Stage at hstage ⊢
  cases hmain : s.main with
  | opening => exact absurd hmain hopening
  | returned selected => exact absurd hmain (hreturned selected)
  | creating k =>
    rw [hmain] at hstage
    rw [show (s.after i t effect).main = .creating k from hmain]
    exact ⟨hstage.1, fun j => ⟨fun hj => hentered j ((hstage.2 j).1 hj),
      fun hj => hother j ((hstage.2 j).2 hj)⟩⟩
  | inline k =>
    rw [hmain] at hstage
    rw [show (s.after i t effect).main = .inline k from hmain]
    obtain ⟨l, hl, hphase, hrest⟩ := hstage
    refine ⟨l, hl, ?_, fun j => ⟨fun hj => hentered j ((hrest j).1 hj),
      fun hj => hother j ((hrest j).2 hj)⟩⟩
    by_cases hli : l = i
    · subst hli
      simpa only [State.after, Function.update_self] using hidle'
    · simpa only [State.after, Function.update_of_ne hli] using hphase
  | waiting =>
    rw [hmain] at hstage
    rw [show (s.after i t effect).main = .waiting from hmain]
    exact fun j => hentered j (hstage j)
  | joining =>
    rw [hmain] at hstage
    rw [show (s.after i t effect).main = .joining from hmain]
    exact fun j => hentered j (hstage j)

theorem Inv.complete_after (h : Inv plan s) {i : Fin n} {t : Task} {effect : Effect}
    (hstep : TaskStep s.cancelled s.owners.length (s.task i) t effect) :
    (s.after i t effect).completed =
      (Finset.univ.filter fun j => ((s.after i t effect).task j).phase = .done).card := by
  obtain ⟨_, hdone, _, hfinished⟩ := hstep.phase_ne
  have hother (j : Fin n) (hj : j ≠ i) : ((s.after i t effect).task j).phase = (s.task j).phase := by
    simp only [State.after, Function.update_of_ne hj]
  have hself : ((s.after i t effect).task i).phase = t.phase := by
    simp only [State.after, Function.update_self]
  by_cases hf : effect.finished = true
  · have hset : (Finset.univ.filter fun j => ((s.after i t effect).task j).phase = .done) =
        insert i (Finset.univ.filter fun j => (s.task j).phase = .done) := by
      ext j
      simp only [Finset.mem_filter, Finset.mem_univ, true_and, Finset.mem_insert]
      by_cases hj : j = i
      · subst hj
        rw [hself]
        exact iff_of_true (hfinished.mp hf) (Or.inl rfl)
      · rw [hother j hj]
        simp only [hj, false_or]
    rw [hset, Finset.card_insert_of_notMem (by simpa using hdone), ← h.complete]
    exact if_pos hf
  · have hset : (Finset.univ.filter fun j => ((s.after i t effect).task j).phase = .done) =
        Finset.univ.filter fun j => (s.task j).phase = .done := by
      apply Finset.filter_congr
      intro j _
      by_cases hj : j = i
      · subst hj
        rw [hself]
        exact iff_of_false (fun hd => hf (hfinished.mpr hd)) hdone
      · rw [hother j hj]
    rw [hset, ← h.complete]
    exact if_neg hf

/-- Every connection is held by one task or destroyed, and one that is opened by the task that
steps. -/
theorem Inv.account_after (h : Inv plan s) {i : Fin n} {t : Task} {effect : Effect}
    (hstep : TaskStep s.cancelled s.owners.length (s.task i) t effect) (x : ℕ) :
    (s.after i t effect).holding x+(s.after i t effect).destroyed.count x =
      if x < (s.after i t effect).owners.length then 1 else 0 := by
  obtain ⟨hidle, hdone, _, _⟩ := hstep.phase_ne
  obtain ⟨_, hreturned⟩ := h.running hidle hdone
  have hcount := hstep.held_count (h.sound i) x
  have hsum := sum_update (fun t => t.held.count x) s.task i t
  have hold := h.account x
  rw [holding_eq hreturned] at hold
  rw [holding_eq (show ∀ selected, (s.after i t effect).main ≠ .returned selected from hreturned)]
  have hdestroyed : (s.after i t effect).destroyed.count x =
      s.destroyed.count x+effect.destroyed.count x := List.count_append
  rw [hdestroyed]
  by_cases hopened : effect.opened = true
  · have hlength : (s.after i t effect).owners.length = s.owners.length+1 := by
      simp only [State.after]
      rw [if_pos hopened, List.length_append, List.length_singleton]
    rw [hlength]
    simp only [State.after]
    simp only [hopened, true_and] at hcount
    split_ifs at hcount hold ⊢ <;> omega
  · have hlength : (s.after i t effect).owners.length = s.owners.length := by
      simp only [State.after]
      rw [if_neg hopened]
    rw [hlength]
    simp only [State.after]
    rw [if_neg fun hboth => hopened hboth.1] at hcount
    omega

theorem Inv.success_after (h : Inv plan s) {i : Fin n} {t : Task} {effect : Effect}
    (hstep : TaskStep s.cancelled s.owners.length (s.task i) t effect) (e : Entry) (x : ℕ) :
    (e, x) ∈ (s.after i t effect).succeeded ↔
      ∃ j, ((s.after i t effect).task j).result = some (x, e) := by
  have hresult := hstep.result_iff (h.sound i) x e
  have hmem : (e, x) ∈ (s.after i t effect).succeeded ↔
      (e, x) ∈ s.succeeded ∨ effect.succeeded = some (e, x) := by
    simp only [State.after, List.mem_append, Option.mem_toList]
  rw [hmem, h.success]
  constructor
  · rintro (⟨j, hj⟩ | hnew)
    · by_cases hji : j = i
      · subst hji
        exact ⟨j, by simpa only [State.after, Function.update_self] using
          hresult.mpr (Or.inl hj)⟩
      · exact ⟨j, by simpa only [State.after, Function.update_of_ne hji] using hj⟩
    · exact ⟨i, by simpa only [State.after, Function.update_self] using
        hresult.mpr (Or.inr hnew)⟩
  · rintro ⟨j, hj⟩
    by_cases hji : j = i
    · subst hji
      simp only [State.after, Function.update_self] at hj
      exact (hresult.mp hj).imp_left fun hold => ⟨j, hold⟩
    · simp only [State.after, Function.update_of_ne hji] at hj
      exact Or.inl ⟨j, hj⟩

/-- A connection keeps its owner. -/
theorem owners_after {i j : Fin n} {t : Task} {effect : Effect} {x : ℕ}
    (hx : s.owners[x]? = some j) : (s.after i t effect).owners[x]? = some j := by
  have hprefix : s.owners <+: (s.after i t effect).owners := by
    simp only [State.after]
    split_ifs
    · exact List.prefix_append _ _
    · exact List.prefix_rfl
  obtain ⟨rest, hrest⟩ := hprefix
  obtain ⟨hlt, _⟩ := List.getElem?_eq_some_iff.mp hx
  rw [← hrest, List.getElem?_append_left hlt]
  exact hx

/-- A step of a task keeps the invariant. -/
theorem Inv.after (h : Inv plan s) {i : Fin n} {t : Task} {effect : Effect}
    (hstep : TaskStep s.cancelled s.owners.length (s.task i) t effect) :
    Inv plan (s.after i t effect) := by
  obtain ⟨hidle, hdone, _, _⟩ := hstep.phase_ne
  obtain ⟨hopening, hreturned⟩ := h.running hidle hdone
  obtain ⟨hheld, hused⟩ := hstep.held_of
  refine ⟨fun hmain => absurd hmain hopening, ?_, h.stage_after hstep, h.account_after hstep, ?_, ?_,
    h.success_after hstep, h.complete_after hstep,
    fun selected hmain => absurd hmain (hreturned selected)⟩
  · intro j
    by_cases hj : j = i
    · subst hj
      simpa only [State.after, Function.update_self] using hstep.sound (h.sound j)
    · simpa only [State.after, Function.update_of_ne hj] using h.sound j
  · intro j x hx
    by_cases hj : j = i
    · subst hj
      simp only [State.after, Function.update_self] at hx
      rcases hheld x hx with hx | ⟨hopened, rfl⟩
      · exact owners_after (h.owner j x hx)
      · simp [State.after, hopened]
    · simp only [State.after, Function.update_of_ne hj] at hx
      exact owners_after (h.owner j x hx)
  · intro j x hx
    rcases List.mem_append.mp (show (j, x) ∈ s.uses ++ _ from hx) with hx | hx
    · exact owners_after (h.use j x hx)
    · obtain ⟨y, hy, hpair⟩ := Option.map_eq_some_iff.mp (Option.mem_toList.mp hx)
      obtain ⟨rfl, rfl⟩ := Prod.mk.inj hpair
      exact owners_after (h.owner i y (hused y hy))

/-- Moving on without touching a task keeps the invariant. -/
theorem Inv.move (h : Inv plan s) (hold : ∀ selected, s.main ≠ .returned selected) (main : Main)
    (cancelled : Bool) (hopening : main ≠ .opening) (hnew : ∀ selected, main ≠ .returned selected)
    (hstage : ({ s with main := main, cancelled := cancelled } : State n).Stage) :
    Inv plan { s with main := main, cancelled := cancelled } := by
  refine ⟨fun hmain => absurd hmain hopening, h.sound, hstage, ?_, h.owner, h.use, h.success,
    h.complete, fun selected hmain => absurd hmain (hnew selected)⟩
  intro x
  rw [holding_eq hnew]
  have haccount := h.account x
  rwa [holding_eq hold] at haccount

/-- The call of a task's function keeps the invariant. -/
theorem Inv.enter (h : Inv plan s) (i : Fin n) (started : Bool) (main : Main)
    (hold : ∀ selected, s.main ≠ .returned selected) (hidle : (s.task i).phase = .idle)
    (hopening : main ≠ .opening) (hnew : ∀ selected, main ≠ .returned selected)
    (hstage : (s.enter i started main).Stage) : Inv plan (s.enter i started main) := by
  have hresult : (s.task i).result = none :=
    (h.sound i).result_eq_none (by rw [hidle]; decide) (by rw [hidle]; decide)
  have hheld (j : Fin n) : ((s.enter i started main).task j).held = (s.task j).held := by
    by_cases hj : j = i
    · subst hj
      simp only [State.enter, Function.update_self, Task.held]
    · simp only [State.enter, Function.update_of_ne hj]
  have hresults (j : Fin n) :
      ((s.enter i started main).task j).result = (s.task j).result := by
    by_cases hj : j = i
    · subst hj
      simp only [State.enter, Function.update_self]
    · simp only [State.enter, Function.update_of_ne hj]
  refine ⟨fun hmain => absurd hmain hopening, ?_, hstage, ?_, ?_, h.use, ?_, ?_,
    fun selected hmain => absurd hmain (hnew selected)⟩
  · intro j
    by_cases hj : j = i
    · subst hj
      simp only [State.enter, Function.update_self]
      exact ⟨(h.sound j).left, by simp [hresult], by simp, by simp, by simp⟩
    · simpa only [State.enter, Function.update_of_ne hj] using h.sound j
  · intro x
    have haccount := h.account x
    rw [holding_eq hold] at haccount
    rw [holding_eq (show ∀ selected, (s.enter i started main).main ≠ .returned selected from hnew)]
    simp only [hheld]
    exact haccount
  · intro j x hx
    rw [hheld] at hx
    exact h.owner j x hx
  · intro e x
    simp only [hresults]
    exact h.success e x
  · have hset : (Finset.univ.filter fun j => ((s.enter i started main).task j).phase = .done) =
        Finset.univ.filter fun j => (s.task j).phase = .done := by
      apply Finset.filter_congr
      intro j _
      by_cases hj : j = i
      · subst hj
        simp only [State.enter, Function.update_self, hidle]
        decide
      · simp only [State.enter, Function.update_of_ne hj]
    rw [hset]
    exact h.complete

/-- The state in which the first socket has been created. -/
def firstOpened (plan : Fin n → List Entry) (initial : Fin n) : State n where
  main := .creating 0
  task := fun i => { left := plan i, socket := if i = initial then some 0 else none }
  owners := [initial]

theorem firstOpened_eq (plan : Fin n → List Entry) (initial : Fin n) :
    ({ start plan with
        main := .creating 0
        task := Function.update (start plan).task initial
          { (start plan).task initial with socket := some (start plan).owners.length }
        owners := (start plan).owners ++ [initial] } : State n) = firstOpened plan initial := by
  have htask : Function.update (start plan).task initial
      { (start plan).task initial with socket := some (start plan).owners.length } =
        (firstOpened plan initial).task := by
    funext i
    by_cases hi : i = initial
    · subst hi
      rw [Function.update_self]
      simp [firstOpened, start]
    · rw [Function.update_of_ne hi]
      simp [firstOpened, start, hi]
  rw [htask]
  rfl

theorem inv_firstOpened (plan : Fin n → List Entry) (initial : Fin n) :
    Inv plan (firstOpened plan initial) := by
  refine ⟨fun hmain => (by cases hmain), ?_, ?_, ?_, ?_, fun i x hx => (by cases hx), ?_, ?_,
    fun selected hmain => (by cases hmain)⟩
  · exact fun i => ⟨List.suffix_rfl, by simp [firstOpened], by simp [firstOpened],
      by simp [firstOpened], by simp [firstOpened]⟩
  · exact ⟨Nat.zero_le n, fun j => ⟨fun hj => absurd hj (Nat.not_lt_zero _), fun _ => rfl⟩⟩
  · intro x
    have hterm (i : Fin n) : ((firstOpened plan initial).task i).held.count x =
        if i = initial then (if x < 1 then 1 else 0) else 0 := by
      by_cases hi : i = initial
      · rw [if_pos hi]
        cases x <;> simp [firstOpened, Task.held, hi]
      · rw [if_neg hi]
        simp [firstOpened, Task.held, hi]
    rw [holding_eq fun selected hmain => by cases hmain]
    simp only [hterm]
    rw [Finset.sum_ite_eq' Finset.univ initial, if_pos (Finset.mem_univ _)]
    rfl
  · intro i x hx
    by_cases hi : i = initial
    · subst hi
      obtain rfl : x = 0 := by simpa [firstOpened, Task.held] using hx
      rfl
    · simp [firstOpened, Task.held, hi] at hx
  · simp [firstOpened]
  · simp [firstOpened]

/-- The selection, after all tasks have come back, keeps the invariant. -/
theorem Inv.select (h : Inv plan s) (hmain : s.main = .joining)
    (hjoined : ∀ i, s.started i = true → (s.task i).phase = .done) : Inv plan s.select := by
  have hstage := h.stage
  rw [State.Stage, hmain] at hstage
  have hdone (i : Fin n) : (s.task i).phase = .done := (hstage i).2.elim (hjoined i) id
  have hsum (x : ℕ) : ∑ i, (s.task i).held.count x =
      (s.results.map fun r => (r.map Prod.fst).toList.count x).sum := by
    rw [State.results, List.map_ofFn, List.sum_ofFn]
    apply Finset.sum_congr rfl
    intro i _
    rw [Task.held, (h.sound i).closed (hdone i)]
    rfl
  have hmem (r : ℕ × Entry) : some r ∈ s.results ↔ (r.2, r.1) ∈ s.succeeded := by
    rw [h.success, State.results, List.mem_ofFn]
  refine ⟨fun hopening => (by cases hopening), h.sound, fun i => Or.inr (hdone i), ?_, h.owner,
    h.use, h.success, h.complete, ?_⟩
  · intro x
    have haccount := h.account x
    rw [holding_eq (by rw [hmain]; simp), hsum] at haccount
    have hcount := selectLoop_count s.results none s.destroyed x
    have hzero : ((none : Option (ℕ × Entry)).map Prod.fst).toList.count x = 0 := rfl
    rw [hzero, Nat.zero_add] at hcount
    change ((selectLoop s.results none s.destroyed).1.map Prod.fst).toList.count x+
      (selectLoop s.results none s.destroyed).2.count x = if x < s.owners.length then 1 else 0
    omega
  · intro selected hselected
    have hleast := selectLoop_least s.results none s.destroyed
    obtain rfl : (selectLoop s.results none s.destroyed).1.map Prod.fst = selected :=
      Main.returned.inj hselected
    revert hleast
    cases (selectLoop s.results none s.destroyed).1 with
    | none =>
      rintro ⟨_, hnone⟩
      change s.succeeded = []
      rw [List.eq_nil_iff_forall_not_mem]
      rintro ⟨e, x⟩ hsuccess
      cases hnone _ ((hmem (x, e)).mpr hsuccess)
    | some best =>
      rintro ⟨hbest, hleast⟩
      have hfound : some best ∈ s.results := hbest.resolve_left fun hb => by cases hb
      exact ⟨best.2, (hmem best).mp hfound, fun e x hsuccess =>
        hleast (x, e) (Or.inr ((hmem (x, e)).mpr hsuccess))⟩

theorem State.Entered.enter {i j : Fin n} (h : s.Entered j) (hidle : (s.task i).phase = .idle)
    (started : Bool) (main : Main) : (s.enter i started main).Entered j := by
  have hne : j ≠ i := by
    rintro rfl
    exact h.1 hidle
  simpa only [State.Entered, State.enter, Function.update_of_ne hne] using h

theorem State.entered_enter (i : Fin n) (main : Main) : (s.enter i true main).Entered i := by
  simp [State.Entered, State.enter]

/-- Every step keeps the invariant. -/
theorem Inv.step (h : Inv plan s) (hstep : Step initial s s') : Inv plan s' := by
  have hstage := h.stage
  cases hstep with
  | openFails hmain =>
    rw [h.opening hmain]
    have hstart := inv_start plan
    exact ⟨fun hopening => (by cases hopening), hstart.sound, fun i => Or.inl rfl,
      fun x => (by simp [State.holding, start]), hstart.owner, hstart.use, hstart.success,
      hstart.complete, fun selected hselected => Main.returned.inj hselected ▸ rfl⟩
  | opens hmain =>
    rw [h.opening hmain, firstOpened_eq]
    exact inv_firstOpened plan initial
  | creates i hmain =>
    rw [State.Stage, hmain] at hstage
    have hidle := (hstage.2 i).2 le_rfl
    refine h.enter i true _ (by rw [hmain]; simp) hidle (by simp) (by simp)
      ⟨i.isLt, fun j => ⟨fun hj => ?_, fun hj => ?_⟩⟩
    · rcases Nat.lt_or_eq_of_le (Nat.le_of_lt_succ hj) with hlt | heq
      · exact ((hstage.2 j).1 hlt).enter hidle true _
      · obtain rfl : j = i := Fin.ext heq
        exact State.entered_enter j _
    · have hne : j ≠ i := by
        rintro rfl
        omega
      simpa only [State.enter, Function.update_of_ne hne] using (hstage.2 j).2 (by omega)
  | createFails i hmain =>
    rw [State.Stage, hmain] at hstage
    have hidle := (hstage.2 i).2 le_rfl
    refine h.enter i false _ (by rw [hmain]; simp) hidle (by simp) (by simp)
      ⟨i, rfl, by simp [State.enter], fun j => ⟨fun hj => ?_, fun hj => ?_⟩⟩
    · exact ((hstage.2 j).1 hj).enter hidle false _
    · have hne : j ≠ i := by
        rintro rfl
        exact lt_irrefl _ hj
      simpa only [State.enter, Function.update_of_ne hne] using (hstage.2 j).2 (le_of_lt hj)
  | resumes i hmain hdone =>
    rw [State.Stage, hmain] at hstage
    obtain ⟨l, hl, hphase, hrest⟩ := hstage
    obtain rfl : i = l := Fin.ext hl
    refine h.move (by rw [hmain]; simp) _ s.cancelled (by simp) (by simp)
      ⟨i.isLt, fun j => ⟨fun hj => ?_, fun hj => (hrest j).2 ?_⟩⟩
    · rcases Nat.lt_or_eq_of_le (Nat.le_of_lt_succ hj) with hlt | heq
      · exact (hrest j).1 hlt
      · obtain rfl : j = i := Fin.ext heq
        exact ⟨hphase, Or.inr hdone⟩
    · exact hj
  | waits hmain =>
    rw [State.Stage, hmain] at hstage
    exact h.move (by rw [hmain]; simp) .waiting s.cancelled (by simp) (by simp)
      fun i => (hstage.2 i).1 i.isLt
  | leaves hmain _ =>
    rw [State.Stage, hmain] at hstage
    exact h.move (by rw [hmain]; simp) .joining _ (by simp) (by simp) hstage
  | selects hmain hjoined => exact h.select hmain hjoined
  | task i t effect htask => exact h.after htask

theorem Reaches.inv (h : Reaches plan initial s) : Inv plan s := by
  induction h with
  | refl => exact inv_start plan
  | tail _ hstep ih => exact ih.step hstep

end LibAtrinik.Quic

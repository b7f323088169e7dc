import LibAtrinik.QuicRaceRun

namespace LibAtrinik.Quic

open Rendezvous

variable {n : ℕ} {plan : Fin n → List Entry} {initial : Fin n} {s s' : State n}

/-- The steps that `socket_quic_client_create` has left, at most. -/
def Main.work (n : ℕ) : Main → ℕ
  | .opening => 2*n+4
  | .creating k => 2*(n-k)+3
  | .inline k => 2*(n-k)+2
  | .waiting => 2
  | .joining => 1
  | .returned _ => 0

/-- The steps that are left to the race, at most. -/
def State.work (s : State n) : ℕ := s.main.work n+∑ i, (s.task i).work

theorem enter_work (i : Fin n) (hidle : (s.task i).phase = .idle) (started : Bool) (main : Main) :
    ∑ j, ((s.enter i started main).task j).work < ∑ j, (s.task j).work := by
  let t : Task := ⟨.checking, (s.task i).left, (s.task i).socket, (s.task i).result⟩
  have hsum := sum_update Task.work s.task i t
  have hwork : (s.task i).work = 3*(s.task i).left.length+3 := by
    rw [Task.work, hidle]
  have hnew : t.work = 3*(s.task i).left.length+2 := rfl
  change ∑ j, (Function.update s.task i t j).work < _
  omega

/-- Each step lowers what is left. -/
theorem Inv.work_lt (h : Inv plan s) (hstep : Step initial s s') : s'.work < s.work := by
  have hstage := h.stage
  unfold State.work
  cases hstep with
  | openFails hmain =>
    rw [hmain]
    simp only [Main.work]
    omega
  | opens hmain =>
    let t : Task := ⟨(s.task initial).phase, (s.task initial).left, some s.owners.length,
      (s.task initial).result⟩
    have hsum := sum_update Task.work s.task initial t
    have hwork : t.work = (s.task initial).work := rfl
    rw [hmain]
    change Main.work n (.creating 0)+∑ j, (Function.update s.task initial t j).work < _
    simp only [Main.work]
    omega
  | creates i hmain =>
    rw [State.Stage, hmain] at hstage
    have hlt := enter_work i ((hstage.2 i).2 le_rfl) true (.creating (i+1))
    have := i.isLt
    rw [hmain]
    change Main.work n (.creating (i+1))+_ < _
    simp only [Main.work]
    omega
  | createFails i hmain =>
    rw [State.Stage, hmain] at hstage
    have hlt := enter_work i ((hstage.2 i).2 le_rfl) false (.inline i)
    rw [hmain]
    change Main.work n (.inline i)+_ < _
    simp only [Main.work]
    omega
  | resumes i hmain hdone =>
    have := i.isLt
    rw [hmain]
    simp only [Main.work]
    omega
  | waits hmain =>
    rw [hmain]
    simp only [Main.work]
    omega
  | leaves hmain hleave =>
    rw [hmain]
    simp only [Main.work]
    omega
  | selects hmain hjoined =>
    rw [hmain]
    change 0+∑ i, (s.task i).work < _
    simp only [Main.work]
    omega
  | task i t effect htask =>
    have hsum := sum_update Task.work s.task i t
    have hlt := htask.work_lt
    change s.main.work n+∑ j, (Function.update s.task i t j).work < _
    omega

theorem Inv.exists_task_step (h : Inv plan s) (initial i : Fin n)
    (hidle : (s.task i).phase ≠ .idle) (hdone : (s.task i).phase ≠ .done) :
    ∃ s', Step initial s s' := by
  obtain ⟨t, effect, hstep⟩ := (h.sound i).exists_step hidle hdone s.cancelled s.owners.length
  exact ⟨_, .task s i t effect hstep⟩

/-- Until it returns, the race is never stuck. -/
theorem Inv.exists_step (h : Inv plan s) (initial : Fin n) :
    (∃ selected, s.main = .returned selected) ∨ ∃ s', Step initial s s' := by
  have hstage := h.stage
  rw [State.Stage] at hstage
  cases hmain : s.main with
  | returned selected => exact Or.inl ⟨selected, rfl⟩
  | opening => exact Or.inr ⟨_, .openFails s hmain⟩
  | creating k =>
    rw [hmain] at hstage
    rcases Nat.lt_or_eq_of_le hstage.1 with hlt | rfl
    · exact Or.inr ⟨_, .creates s ⟨k, hlt⟩ hmain⟩
    · exact Or.inr ⟨_, .waits s hmain⟩
  | inline k =>
    rw [hmain] at hstage
    obtain ⟨i, rfl, hidle, _⟩ := hstage
    by_cases hdone : (s.task i).phase = .done
    · exact Or.inr ⟨_, .resumes s i hmain hdone⟩
    · exact Or.inr (h.exists_task_step initial i hidle hdone)
  | waiting =>
    rw [hmain] at hstage
    by_cases hall : ∀ i, (s.task i).phase = .done
    · have hcomplete : s.completed = n := by
        rw [h.complete, Finset.filter_true_of_mem fun i _ => hall i, Finset.card_univ,
          Fintype.card_fin]
      exact Or.inr ⟨_, .leaves s hmain (Or.inl hcomplete)⟩
    · push Not at hall
      obtain ⟨i, hdone⟩ := hall
      exact Or.inr (h.exists_task_step initial i (hstage i).1 hdone)
  | joining =>
    rw [hmain] at hstage
    by_cases hall : ∀ i, s.started i = true → (s.task i).phase = .done
    · exact Or.inr ⟨_, .selects s hmain hall⟩
    · push Not at hall
      obtain ⟨i, _, hdone⟩ := hall
      exact Or.inr (h.exists_task_step initial i (hstage i).1 hdone)

/-- A socket is held by one task only. -/
theorem Inv.held_unique (h : Inv plan s) (i j : Fin n) (x : ℕ) (hi : x ∈ (s.task i).held)
    (hj : x ∈ (s.task j).held) : i = j :=
  Option.some.inj ((h.owner i x hi).symm.trans (h.owner j x hj))

/-- Handshakes that have succeeded for candidates of one rank are the same. -/
theorem Inv.success_unique (h : Inv plan s)
    (hdisjoint : ∀ i j, ∀ e ∈ plan i, ∀ e' ∈ plan j, e.rank = e'.rank → i = j)
    {p q : Entry × ℕ} (hp : p ∈ s.succeeded) (hq : q ∈ s.succeeded)
    (hrank : p.1.rank = q.1.rank) : p = q := by
  obtain ⟨i, hi⟩ := (h.success p.1 p.2).mp hp
  obtain ⟨j, hj⟩ := (h.success q.1 q.2).mp hq
  have hpi := ((h.sound i).result _ _ hi).1
  have hqj := ((h.sound j).result _ _ hj).1
  obtain rfl := hdisjoint i j _ hpi _ hqj hrank
  obtain ⟨hx, he⟩ := Prod.mk.inj (Option.some.inj (hi.symm.trans hj))
  exact Prod.ext he hx

/-- At the end, every socket has been destroyed once, but for the returned one. -/
theorem Inv.destroyed_count (h : Inv plan s) {selected : Option ℕ}
    (hmain : s.main = .returned selected) (x : ℕ) :
    s.destroyed.count x = if x < s.owners.length ∧ selected ≠ some x then 1 else 0 := by
  have haccount := h.account x
  rw [State.holding, hmain] at haccount
  change selected.toList.count x+s.destroyed.count x = _ at haccount
  by_cases hselected : selected = some x
  · subst hselected
    rw [if_neg fun hboth => hboth.2 rfl]
    simp only [Option.toList_some, List.count_singleton_self] at haccount
    split_ifs at haccount <;> omega
  · have hzero : selected.toList.count x = 0 := by
      rw [List.count_eq_zero, Option.mem_toList]
      exact hselected
    rw [hzero, Nat.zero_add] at haccount
    rw [haccount]
    exact if_congr (iff_of_eq (by simp [hselected])) rfl rfl

/-- The race between the candidates in the order of the preference comes to its end, whatever the
threads do: the socket of the best handshake is returned, all others are destroyed once, and no
socket is used by two tasks. -/
theorem quic_race (rendezvous : List SocketDirectCandidate)
    (hkinds : ∀ c ∈ rendezvous, c.kind ≠ .num) (host : List Char) (port : UInt16)
    (preference : SocketConnectionPreference) (resolves : ℕ → Bool) :
    let ordered := orderedCandidates preference (allCandidates rendezvous host port)
    let tasks := assignTasks resolves ordered
    ordered.Perm (allCandidates rendezvous host port) ∧
    (ordered.Pairwise fun a b =>
      (orderedPriorities (socketQuicPreferenceKind preference)).idxOf a.kind ≤
        (orderedPriorities (socketQuicPreferenceKind preference)).idxOf b.kind) ∧
    ∃ hinitial : initialSocketTask tasks < tasks.entries.length,
      ∀ s, Reaches (fun i => tasks.entries[i]) ⟨initialSocketTask tasks, hinitial⟩ s →
        (∀ e x, (e, x) ∈ s.succeeded → ordered[e.rank]? = some e.candidate) ∧
        (∀ i j x, (i, x) ∈ s.uses → (j, x) ∈ s.uses → i = j) ∧
        (∀ i j x, x ∈ (s.task i).held → x ∈ (s.task j).held → i = j) ∧
        (∀ selected, s.main = .returned selected →
          (selected = none ↔ s.succeeded = []) ∧
          (∀ x, selected = some x → ∃ e, (e, x) ∈ s.succeeded ∧
            ∀ p ∈ s.succeeded, p ≠ (e, x) → e.rank < p.1.rank) ∧
          ∀ x, s.destroyed.count x =
            if x < s.owners.length ∧ selected ≠ some x then 1 else 0) ∧
        ((∃ selected, s.main = .returned selected) ∨
          ∃ s', Step ⟨initialSocketTask tasks, hinitial⟩ s s') ∧
        ∀ s', Step ⟨initialSocketTask tasks, hinitial⟩ s s' → s'.work < s.work := by
  intro ordered tasks
  have hall : ∀ c ∈ allCandidates rendezvous host port, c.kind ≠ .num := by
    intro c hc
    rcases List.mem_append.mp hc with hc | hc
    · exact hkinds c hc
    · rw [List.mem_singleton.mp hc]
      simp
  have hperm := orderedCandidates_perm preference _ hall
  have hdirectory : ∃ c ∈ ordered, c.kind = .directory :=
    ⟨_, hperm.mem_iff.mpr (List.mem_append_right _ List.mem_cons_self), rfl⟩
  have hdealt := assignTasks_dealt resolves ordered
  have hinitial := initialSocketTask_lt hdealt (assignTasks_ne_nil resolves ordered hdirectory)
  refine ⟨hperm, orderedCandidates_pairwise preference _, hinitial, fun s hs => ?_⟩
  have hinv := hs.inv
  have hdisjoint (i j : Fin tasks.entries.length) (e : Entry) (he : e ∈ tasks.entries[i])
      (e' : Entry) (he' : e' ∈ tasks.entries[j]) (hrank : e.rank = e'.rank) : i = j :=
    Fin.ext (assignTasks_disjoint resolves ordered i j i.isLt j.isLt e e' he he' hrank)
  refine ⟨?_, ?_, hinv.held_unique, ?_, hinv.exists_step _, fun s' hstep => hinv.work_lt hstep⟩
  · intro e x hsuccess
    obtain ⟨i, hi⟩ := (hinv.success e x).mp hsuccess
    have hmem : e ∈ tasks.entries.flatten :=
      List.mem_flatten.mpr ⟨_, List.getElem_mem i.isLt, ((hinv.sound i).result x e hi).1⟩
    exact mem_ranked.mp (List.mem_of_mem_filter (hdealt.perm.mem_iff.mp hmem))
  · intro i j x hi hj
    exact Option.some.inj ((hinv.use i x hi).symm.trans (hinv.use j x hj))
  · intro selected hmain
    have hanswer := hinv.answer selected hmain
    refine ⟨?_, ?_, hinv.destroyed_count hmain⟩
    · cases selected with
      | none => exact iff_of_true rfl hanswer
      | some x =>
        obtain ⟨e, he, _⟩ := hanswer
        refine iff_of_false (by simp) (fun hnil => ?_)
        rw [hnil] at he
        cases he
    · rintro x rfl
      obtain ⟨e, he, hleast⟩ := hanswer
      refine ⟨e, he, fun p hp hne => lt_of_le_of_ne (hleast p.1 p.2 hp) fun hrank => ?_⟩
      exact hne (hinv.success_unique hdisjoint hp he hrank.symm)

/-- The candidate of the directory connects first, and then one in the local network does, which is
preferred and gets a socket of its own. -/
theorem quic_race_directory :
    let tasks := assignTasks (fun _ => true) (orderedCandidates .auto
      (allCandidates [⟨"10.0.0.7".toList, 9000, .lan⟩] "192.0.2.1".toList 443))
    ∃ s : State tasks.entries.length, tasks.entries.length = 2 ∧ s.main = .returned (some 1) ∧
      s.succeeded.length = 2 ∧ s.destroyed.count 0 = 1 ∧ s.destroyed.count 1 = 0 := by
  intro tasks
  obtain ⟨_, _, hinitial, hrun⟩ := quic_race [⟨"10.0.0.7".toList, 9000, .lan⟩] (by decide)
    "192.0.2.1".toList 443 .auto fun _ => true
  let lan : Fin tasks.entries.length := ⟨0, by decide⟩
  let directory : Fin tasks.entries.length := ⟨initialSocketTask tasks, hinitial⟩
  let e₀ : Entry := ⟨0, ⟨"10.0.0.7".toList, 9000, .lan⟩⟩
  let e₁ : Entry := ⟨1, ⟨"192.0.2.1".toList, 443, .directory⟩⟩
  -- both threads are created
  let s₀ : State tasks.entries.length := start fun i => tasks.entries[i]
  let s₁ : State tasks.entries.length := { s₀ with
    main := .creating 0
    task := Function.update s₀.task directory { s₀.task directory with socket := some 0 }
    owners := [directory] }
  let s₂ := s₁.enter lan true (.creating 1)
  let s₃ := s₂.enter directory true (.creating 2)
  let s₄ : State tasks.entries.length := { s₃ with main := .waiting }
  have h₁ : Step directory s₀ s₁ := .opens s₀ rfl
  have h₂ : Step directory s₁ s₂ := .creates s₁ lan rfl
  have h₃ : Step directory s₂ s₃ := .creates s₂ directory rfl
  have h₄ : Step directory s₃ s₄ := .waits s₃ rfl
  -- the thread of the local candidate is in its handshake when the other one finishes
  let s₅ := s₄.after lan ⟨.opening, [e₀], none, none⟩ {}
  let s₆ := s₅.after lan ⟨.shaking, [e₀], some 1, none⟩ { opened := true }
  let s₇ := s₆.after directory ⟨.opening, [e₁], some 0, none⟩ {}
  let s₈ := s₇.after directory ⟨.shaking, [e₁], some 0, none⟩ {}
  let s₉ := s₈.after directory ⟨.closing, [e₁], none, some (0, e₁)⟩
    { used := some 0, succeeded := some (e₁, 0) }
  let s₁₀ := s₉.after directory ⟨.done, [e₁], none, some (0, e₁)⟩ { finished := true }
  have h₅ : Step directory s₄ s₅ := .task s₄ lan _ _ (.proceeds e₀ [] none none rfl)
  have h₆ : Step directory s₅ s₆ := .task s₅ lan _ _ (.opens e₀ [] none)
  have h₇ : Step directory s₆ s₇ := .task s₆ directory _ _ (.proceeds e₁ [] (some 0) none rfl)
  have h₈ : Step directory s₇ s₈ := .task s₇ directory _ _ (.keeps e₁ [] 0 none)
  have h₉ : Step directory s₈ s₉ := .task s₈ directory _ _ (.connects e₁ [] 0 none)
  have h₁₀ : Step directory s₉ s₁₀ := .task s₉ directory _ _ (.closes [e₁] none (some (0, e₁)))
  -- it succeeds all the same, and both are joined
  let s₁₁ : State tasks.entries.length := { s₁₀ with main := .joining, cancelled := true }
  let s₁₂ := s₁₁.after lan ⟨.closing, [e₀], none, some (1, e₀)⟩
    { used := some 1, succeeded := some (e₀, 1) }
  let s₁₃ := s₁₂.after lan ⟨.done, [e₀], none, some (1, e₀)⟩ { finished := true }
  have h₁₁ : Step directory s₁₀ s₁₁ := .leaves s₁₀ rfl (Or.inr (Option.some_ne_none 1))
  have h₁₂ : Step directory s₁₁ s₁₂ := .task s₁₁ lan _ _ (.connects e₀ [] 1 none)
  have h₁₃ : Step directory s₁₂ s₁₃ := .task s₁₂ lan _ _ (.closes [e₀] none (some (1, e₀)))
  have hboth (i : Fin tasks.entries.length) : i = lan ∨ i = directory := by
    have hi : i.val < 2 := i.isLt
    rcases Nat.lt_or_eq_of_le (Nat.le_of_lt_succ hi) with hzero | hone
    · exact Or.inl (Fin.ext (Nat.lt_one_iff.mp hzero))
    · exact Or.inr (Fin.ext hone)
  have h₁₄ : Step directory s₁₃ s₁₃.select := by
    refine .selects s₁₃ rfl fun i _ => ?_
    rcases hboth i with rfl | rfl
    · rfl
    · rfl
  have hreaches : Reaches (fun i => tasks.entries[i]) directory s₁₃.select :=
    (((((((((((((Relation.ReflTransGen.single h₁).tail h₂).tail h₃).tail h₄).tail h₅).tail
      h₆).tail h₇).tail h₈).tail h₉).tail h₁₀).tail h₁₁).tail h₁₂).tail h₁₃).tail h₁₄
  obtain ⟨_, _, _, hanswer, _⟩ := hrun s₁₃.select hreaches
  obtain ⟨_, _, hdestroyed⟩ := hanswer (some 1) rfl
  have howners : s₁₃.select.owners.length = 2 := rfl
  refine ⟨s₁₃.select, rfl, rfl, rfl, ?_, ?_⟩
  · rw [hdestroyed, howners, if_pos ⟨Nat.zero_lt_two, by decide⟩]
  · rw [hdestroyed, if_neg fun hno => hno.2 rfl]

end LibAtrinik.Quic

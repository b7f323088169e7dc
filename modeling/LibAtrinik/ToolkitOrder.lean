import LibAtrinik.Toolkit
import Mathlib.Data.Finset.Card
import Mathlib.Data.List.Nodup

namespace LibAtrinik.Toolkit

variable {Api : Type*} [DecidableEq Api]

/-- Registered once each, and after all that they depend on. -/
structure Registered (dependencies : Api → List (ToolkitDependency Api)) (apis : List Api) :
    Prop where
  nodup : apis.Nodup
  after : ∀ before a later, apis = before ++ a :: later →
    ∀ b ∈ dependsOn dependencies a, b ∈ before

variable {dependencies : Api → List (ToolkitDependency Api)}

omit [DecidableEq Api] in
theorem registered_nil : Registered dependencies [] :=
  ⟨List.nodup_nil, fun before a later h => by simp at h⟩

omit [DecidableEq Api] in
/-- An API whose dependencies have been registered may be registered next. -/
theorem Registered.append {apis : List Api} (h : Registered dependencies apis) (api : Api)
    (hnew : api ∉ apis) (hdepends : ∀ b ∈ dependsOn dependencies api, b ∈ apis) :
    Registered dependencies (apis ++ [api]) := by
  constructor
  · rw [List.nodup_append]
    refine ⟨h.nodup, List.nodup_singleton api, ?_⟩
    intro a ha b hb hab
    rw [List.mem_singleton.mp hb] at hab
    exact hnew (hab ▸ ha)
  · intro before a later hsplit b hb
    rcases List.eq_nil_or_concat later with hnil | ⟨more, last, hlast⟩
    · -- the API itself
      rw [hnil] at hsplit
      obtain ⟨hbefore, hapi⟩ := List.append_inj' hsplit rfl
      rw [← hbefore]
      rw [← List.singleton_inj.mp hapi] at hb
      exact hdepends b hb
    · -- one that was there before
      rw [hlast, List.concat_eq_append, ← List.cons_append, ← List.append_assoc] at hsplit
      exact h.after before a more (List.append_inj' hsplit rfl).1 b hb

theorem Runs.ordered {requests : List Api} {s s' : ToolkitState Api}
    (h : Runs dependencies requests s s') (hs : Registered dependencies s.apis) :
    Registered dependencies s'.apis := by
  induction h with
  | nil => exact hs
  | imported _ _ ih => exact ih hs
  | @call api rest s s₁ s₂ s' hin hdepends _ _ ih₁ ih₂ ih₃ =>
    apply ih₃
    apply ih₂
    have hreg : (executeBody (toolkitImportRegister s₁ api) api).apis =
        if api ∈ s₁.apis then s₁.apis else s₁.apis ++ [api] := apis_register s₁ api
    rw [hreg]
    by_cases hagain : api ∈ s₁.apis
    · -- it has been registered in the meantime
      rw [if_pos hagain]
      exact ih₁ hs
    · rw [if_neg hagain]
      exact (ih₁ hs).append api hagain fun b hb => hdepends.requested hb

section Termination

variable [Fintype Api]

/-- The APIs that are not registered yet. -/
def unregistered (s : ToolkitState Api) : Finset Api := Finset.univ.filter fun a => a ∉ s.apis

open Classical in
/-- The number of APIs that an API depends on, through others if need be. -/
noncomputable def rank (dependencies : Api → List (ToolkitDependency Api)) (api : Api) : ℕ :=
  (Finset.univ.filter fun b => Relation.TransGen (Depends dependencies) api b).card

/-- What decreases with each call: the number of unregistered APIs first, the rank second. -/
noncomputable def workLeft (dependencies : Api → List (ToolkitDependency Api))
    (s : ToolkitState Api) (api : Api) : ℕ :=
  (unregistered s).card*(Fintype.card Api+1)+rank dependencies api

omit [DecidableEq Api] in
theorem rank_le (api : Api) : rank dependencies api ≤ Fintype.card Api := Finset.card_le_univ _

omit [DecidableEq Api] in
theorem rank_lt (hacyclic : Acyclic dependencies) (api b : Api)
    (h : b ∈ dependsOn dependencies api) : rank dependencies b < rank dependencies api := by
  classical
  apply Finset.card_lt_card
  rw [Finset.ssubset_iff_of_subset]
  · refine ⟨b, ?_, ?_⟩
    · exact Finset.mem_filter.mpr ⟨Finset.mem_univ b, .single h⟩
    · intro hb
      exact hacyclic b (Finset.mem_filter.mp hb).2
  · intro c hc
    have hreach := (Finset.mem_filter.mp hc).2
    exact Finset.mem_filter.mpr ⟨Finset.mem_univ c, .head h hreach⟩

section Work

variable (dependencies)

/-- The work that is left does not grow when more APIs are registered. -/
theorem workLeft_mono (s s' : ToolkitState Api) (h : ∀ a ∈ s.apis, a ∈ s'.apis) (api : Api) :
    workLeft dependencies s' api ≤ workLeft dependencies s api := by
  apply Nat.add_le_add_right
  apply Nat.mul_le_mul_right
  apply Finset.card_le_card
  intro a ha
  have hnot := (Finset.mem_filter.mp ha).2
  exact Finset.mem_filter.mpr ⟨Finset.mem_univ a, fun hin => hnot (h a hin)⟩

/-- Whatever is called after one more API has been registered has less work left. -/
theorem workLeft_lt (s s' : ToolkitState Api) (h : ∀ a ∈ s.apis, a ∈ s'.apis) (api b : Api)
    (hnew : api ∉ s.apis) (hreg : api ∈ s'.apis) :
    workLeft dependencies s' b < workLeft dependencies s api := by
  have hcard : (unregistered s').card < (unregistered s).card := by
    apply Finset.card_lt_card
    rw [Finset.ssubset_iff_of_subset]
    · refine ⟨api, Finset.mem_filter.mpr ⟨Finset.mem_univ api, hnew⟩, ?_⟩
      intro hin
      exact (Finset.mem_filter.mp hin).2 hreg
    · intro a ha
      have hnot := (Finset.mem_filter.mp ha).2
      exact Finset.mem_filter.mpr ⟨Finset.mem_univ a, fun hin => hnot (h a hin)⟩
  have hrank : rank dependencies b ≤ Fintype.card Api := rank_le b
  calc workLeft dependencies s' b
      < (unregistered s').card*(Fintype.card Api+1)+(Fintype.card Api+1) :=
        Nat.add_lt_add_left (Nat.lt_succ_of_le hrank) _
    _ = ((unregistered s').card+1)*(Fintype.card Api+1) := (Nat.succ_mul _ _).symm
    _ ≤ (unregistered s).card*(Fintype.card Api+1) := Nat.mul_le_mul_right _ hcard
    _ ≤ workLeft dependencies s api := Nat.le_add_right _ _

end Work

/-- With enough fuel an initialisation comes back, and more fuel makes no difference. -/
theorem toolkitImports_terminates (hacyclic : Acyclic dependencies) (fuel : ℕ)
    (requests : List Api) (s : ToolkitState Api)
    (h : ∀ api ∈ requests, workLeft dependencies s api < fuel) :
    ∃ s', ∀ n ≥ fuel, toolkitImports dependencies n requests s = some s' := by
  induction fuel generalizing requests s with
  | zero =>
    cases requests with
    | nil => exact ⟨s, fun _ _ => rfl⟩
    | cons api rest => exact absurd (h api List.mem_cons_self) (Nat.not_lt_zero _)
  | succ fuel ih =>
    induction requests generalizing s with
    | nil => exact ⟨s, fun _ _ => rfl⟩
    | cons api rest ihrest =>
      -- first the call, then the other requests
      have hcall : ∃ s', ∀ n ≥ fuel+1, toolkitInit dependencies n api s = some s' := by
        by_cases hin : api ∈ s.apis
        · refine ⟨s, fun n hn => ?_⟩
          obtain ⟨m, rfl⟩ := Nat.exists_eq_add_of_le' hn
          rw [← Nat.add_assoc, toolkitInit_succ, if_pos hin]
        have hwork : workLeft dependencies s api < fuel+1 := h api List.mem_cons_self
        obtain ⟨s₁, hdepends⟩ := ih (dependsOn dependencies api) s fun b hb => by
          have hlt := rank_lt hacyclic api b hb
          have hb : workLeft dependencies s b < workLeft dependencies s api :=
            Nat.add_lt_add_left hlt _
          omega
        have hruns := runs_of_toolkitImports fuel _ s s₁ (hdepends fuel (Nat.le_refl _))
        have hset := registered_executeBody s₁ api
        have hgrown : ∀ a ∈ s.apis,
            a ∈ (executeBody (toolkitImportRegister s₁ api) api).apis := by
          intro a ha
          have hmem : a ∈ (executeBody (toolkitImportRegister s₁ api) api).registered := by
            rw [hset]
            exact Or.inr (hruns.subset ha)
          exact hmem
        have hself : api ∈ (executeBody (toolkitImportRegister s₁ api) api).apis := by
          have hmem : api ∈ (executeBody (toolkitImportRegister s₁ api) api).registered := by
            rw [hset]
            exact Or.inl rfl
          exact hmem
        obtain ⟨s₂, himports⟩ := ih (importsOf dependencies api)
          (executeBody (toolkitImportRegister s₁ api) api) fun b _ => by
            have hlt := workLeft_lt dependencies s _ hgrown api b hin hself
            omega
        refine ⟨s₂, fun n hn => ?_⟩
        obtain ⟨m, rfl⟩ := Nat.exists_eq_add_of_le' hn
        rw [← Nat.add_assoc, toolkitInit_succ, if_neg hin, hdepends (m+fuel) (by omega)]
        exact himports (m+fuel) (by omega)
      obtain ⟨s₁, hfirst⟩ := hcall
      have hruns := runs_of_toolkitImports (fuel+1) [api] s s₁ (by
        rw [toolkitImports_cons, hfirst _ (Nat.le_refl _)]
        rfl)
      obtain ⟨s', hrest⟩ := ihrest s₁ fun b hb => by
        have hle := workLeft_mono dependencies s s₁ (fun _ => hruns.subset) b
        have hb := h b (List.mem_cons_of_mem _ hb)
        omega
      refine ⟨s', fun n hn => ?_⟩
      rw [toolkitImports_cons, hfirst n hn]
      exact hrest n hn

/-- A sequence of imports comes back with the APIs registered that it needs, each once and after all
that it depends on; they are deinitialised once each and before all that they depend on. -/
theorem imports_registered (hacyclic : Acyclic dependencies) (requests : List Api) :
    ∃ fuel s, (∀ n ≥ fuel, toolkitImports dependencies n requests {} = some s) ∧
      (∀ a, a ∈ s.apis ↔ ∃ r ∈ requests, Relation.ReflTransGen (Needs dependencies) r a) ∧
      (∀ a ∈ s.apis, s.apis.count a = 1) ∧
      (∀ before a later, s.apis = before ++ a :: later →
        ∀ b ∈ dependsOn dependencies a, b ∈ before) ∧
      (∀ a ∈ s.apis, (toolkitDeinit s).1.count a = 1) ∧
      (∀ before a later, (toolkitDeinit s).1 = before ++ a :: later →
        ∀ b ∈ dependsOn dependencies a, b ∈ later) := by
  let start : ToolkitState Api := {}
  obtain ⟨bound, hbound⟩ : ∃ bound, ∀ api ∈ requests, workLeft dependencies start api < bound := by
    refine ⟨(unregistered start).card*(Fintype.card Api+1)+Fintype.card Api+1, fun api _ => ?_⟩
    have hrank : rank dependencies api ≤ Fintype.card Api := rank_le api
    unfold workLeft
    omega
  obtain ⟨s, hs⟩ := toolkitImports_terminates hacyclic bound requests start hbound
  have hruns := runs_of_toolkitImports bound requests start s (hs bound (Nat.le_refl _))
  have hordered := hruns.ordered registered_nil
  refine ⟨bound, s, hs, ?_, ?_, hordered.after, ?_, ?_⟩
  · intro a
    have hmem : a ∈ s.apis ↔ a ∈ s.registered := Iff.rfl
    have hnone : start.registered = ∅ := Set.eq_empty_of_forall_notMem fun _ => List.not_mem_nil
    rw [hmem, hruns.registered, hnone]
    exact VisitedClosure.visited_empty requests a
  · intro a ha
    exact List.count_eq_one_of_mem hordered.nodup ha
  · intro a ha
    have hcount : (toolkitDeinit s).1.count a = s.apis.count a := List.count_reverse
    rw [hcount]
    exact List.count_eq_one_of_mem hordered.nodup ha
  · intro before a later hsplit b hb
    -- the order of deinitialisation is the reverse of the other one
    have hsplit' : s.apis = later.reverse ++ a :: before.reverse := by
      have hreverse := congrArg List.reverse hsplit
      change s.apis.reverse.reverse = _ at hreverse
      rw [List.reverse_reverse] at hreverse
      rw [hreverse]
      simp only [List.reverse_append, List.reverse_cons, List.append_assoc, List.singleton_append]
    exact List.mem_reverse.mp (hordered.after _ a _ hsplit' b hb)

end Termination

omit [DecidableEq Api] in
/-- Numbers that fall along the dependencies rule out circles. -/
theorem acyclic_of_level (level : Api → ℕ)
    (h : ∀ a, ∀ b ∈ dependsOn dependencies a, level b < level a) : Acyclic dependencies := by
  have hfalls : ∀ a b, Relation.TransGen (Depends dependencies) a b → level b < level a := by
    intro a b hreach
    induction hreach with
    | single hb => exact h _ _ hb
    | tail _ hc ih => exact (h _ _ hc).trans ih
  intro a hcircle
  exact Nat.lt_irrefl _ (hfalls a a hcircle)

/-- The APIs of this library. -/
inductive LibraryApi where
  | datetime | socket | path | mempool | string | colorspace | curl | shstr | math | packet
  | clioptions | binreloc | console | signals | logger | process | password | stringbuffer
deriving DecidableEq, Repr

instance : Fintype LibraryApi :=
  Fintype.ofList [.datetime, .socket, .path, .mempool, .string, .colorspace, .curl, .shstr, .math,
    .packet, .clioptions, .binreloc, .console, .signals, .logger, .process, .password,
    .stringbuffer] (by intro api; cases api <;> decide)

def depends (api : LibraryApi) : ToolkitDependency LibraryApi := ⟨api, true⟩
def imports (api : LibraryApi) : ToolkitDependency LibraryApi := ⟨api, false⟩

/-- Their `TOOLKIT_API` lines. -/
def libraryDependencies : LibraryApi → List (ToolkitDependency LibraryApi)
  | .datetime => []
  | .socket => [depends .datetime]
  | .path => [depends .logger, depends .string, depends .stringbuffer]
  | .mempool => [depends .math, depends .logger, depends .string, depends .stringbuffer]
  | .string => [imports .math, imports .stringbuffer]
  | .colorspace => []
  | .curl => [depends .clioptions]
  | .shstr => [depends .logger]
  | .math => [depends .logger]
  | .packet => [depends .mempool]
  | .clioptions => [depends .logger, imports .string, imports .stringbuffer]
  | .binreloc => [depends .path]
  | .console => [depends .logger, depends .string]
  | .signals => []
  | .logger => [depends .string]
  | .process => [imports .logger]
  | .password => []
  | .stringbuffer => [imports .string]

def libraryLevel : LibraryApi → ℕ
  | .logger => 1
  | .math | .path | .clioptions | .shstr | .console | .socket => 2
  | .mempool | .curl | .binreloc => 3
  | .packet => 4
  | _ => 0

theorem library_acyclic : Acyclic libraryDependencies := by
  apply acyclic_of_level libraryLevel
  decide

/-- The packet API and then the logger, which the packet API needs. -/
theorem imports_registered_packet :
    ∃ fuel s, (∀ n ≥ fuel, toolkitImports libraryDependencies n [.packet, .logger] {} = some s) ∧
      s.apis.count .logger = 1 ∧ (toolkitDeinit s).1.count .packet = 1 := by
  obtain ⟨fuel, s, hs, hmem, hcount, _, hdeinit, _⟩ :=
    imports_registered library_acyclic [.packet, .logger]
  have hlogger := (hmem .logger).mpr ⟨.logger, by decide, .refl⟩
  have hpacket := (hmem .packet).mpr ⟨.packet, by decide, .refl⟩
  exact ⟨fuel, s, hs, hcount _ hlogger, hdeinit _ hpacket⟩

end LibAtrinik.Toolkit

import LibAtrinik.VisitedClosure
import Mathlib.Data.Fintype.Card
import Mathlib.Data.List.Basic

/-! The initialisation of the toolkit APIs. The function that the macros define for an API first
initialises what the API depends on, then registers it and runs its own body, and initialises what
it merely imports last. The list of registered APIs is its only guard against doing this again. -/
namespace LibAtrinik.Toolkit

variable {Api : Type*} [DecidableEq Api]

/-- `toolkit_dependency_t`. -/
structure ToolkitDependency (Api : Type*) where
  func : Api
  depends : Bool
deriving DecidableEq, Repr

/-- The registered APIs in the order of their registration, and the bodies that have been
executed, in the order of their execution. -/
structure ToolkitState (Api : Type*) where
  apis : List Api := []
  bodies : List Api := []
deriving DecidableEq, Repr

def toolkitCheckImported (s : ToolkitState Api) (api : Api) : Bool := api ∈ s.apis

def toolkitImportRegister (s : ToolkitState Api) (api : Api) : ToolkitState Api :=
  if toolkitCheckImported s api then s else { s with apis := s.apis ++ [api] }

/-- The code between the two macros. -/
def executeBody (s : ToolkitState Api) (api : Api) : ToolkitState Api :=
  { s with bodies := s.bodies ++ [api] }

/-- `toolkit_import`: the function between `TOOLKIT_INIT_FUNC` and `TOOLKIT_INIT_FUNC_FINISH`, with
at most `fuel` calls inside of each other. -/
def toolkitInit (dependencies : Api → List (ToolkitDependency Api)) :
    ℕ → Api → ToolkitState Api → Option (ToolkitState Api)
  | 0, _, _ => none
  | fuel+1, api, s =>
    if toolkitCheckImported s api then some s
    else do
      let s ← (dependencies api).foldlM (fun s dependency =>
        if dependency.depends then toolkitInit dependencies fuel dependency.func s else some s) s
      let s := executeBody (toolkitImportRegister s api) api
      (dependencies api).foldlM (fun s dependency =>
        if !dependency.depends then toolkitInit dependencies fuel dependency.func s else some s) s

/-- A sequence of `toolkit_import` calls. -/
def toolkitImports (dependencies : Api → List (ToolkitDependency Api)) (fuel : ℕ)
    (requests : List Api) (s : ToolkitState Api) : Option (ToolkitState Api) :=
  requests.foldlM (fun s api => toolkitInit dependencies fuel api s) s

/-- The deinitialisation functions in the order in which they run, and the state afterwards. -/
def toolkitDeinit (s : ToolkitState Api) : List Api × ToolkitState Api :=
  (s.apis.reverse, { s with apis := [] })

section Graph

variable (dependencies : Api → List (ToolkitDependency Api))

/-- What an API depends on. -/
def dependsOn (api : Api) : List Api :=
  ((dependencies api).filter fun dependency => dependency.depends).map ToolkitDependency.func

/-- What an API imports without depending on it. -/
def importsOf (api : Api) : List Api :=
  ((dependencies api).filter fun dependency => !dependency.depends).map ToolkitDependency.func

def Depends (a b : Api) : Prop := b ∈ dependsOn dependencies a

/-- An API needs another one in either way. -/
def Needs (a b : Api) : Prop := b ∈ dependsOn dependencies a ∨ b ∈ importsOf dependencies a

/-- No API depends on itself through others. -/
def Acyclic : Prop := ∀ a, ¬Relation.TransGen (Depends dependencies) a a

/-- What a terminating initialisation of a list of APIs does. -/
inductive Runs : List Api → ToolkitState Api → ToolkitState Api → Prop where
  | nil (s : ToolkitState Api) : Runs [] s s
  | imported {api : Api} {rest : List Api} {s s' : ToolkitState Api} (h : api ∈ s.apis)
      (hrest : Runs rest s s') : Runs (api :: rest) s s'
  | call {api : Api} {rest : List Api} {s s₁ s₂ s' : ToolkitState Api} (h : api ∉ s.apis)
      (hdepends : Runs (dependsOn dependencies api) s s₁)
      (himports : Runs (importsOf dependencies api)
        (executeBody (toolkitImportRegister s₁ api) api) s₂)
      (hrest : Runs rest s₂ s') : Runs (api :: rest) s s'

end Graph

variable {dependencies : Api → List (ToolkitDependency Api)}

theorem apis_register (s : ToolkitState Api) (api : Api) :
    (toolkitImportRegister s api).apis = if api ∈ s.apis then s.apis else s.apis ++ [api] := by
  unfold toolkitImportRegister toolkitCheckImported
  by_cases h : api ∈ s.apis
  · rw [if_pos (decide_eq_true h), if_pos h]
  · rw [if_neg (by rwa [decide_eq_true_eq]), if_neg h]

theorem bodies_register (s : ToolkitState Api) (api : Api) :
    (toolkitImportRegister s api).bodies = s.bodies := by
  unfold toolkitImportRegister
  split_ifs <;> rfl

omit [DecidableEq Api] in
/-- A loop over the dependencies that takes up those of one kind. -/
theorem foldlM_guarded (p : ToolkitDependency Api → Bool)
    (f : Api → ToolkitState Api → Option (ToolkitState Api)) (xs : List (ToolkitDependency Api))
    (s : ToolkitState Api) :
    xs.foldlM (fun s dependency => if p dependency then f dependency.func s else some s) s =
      ((xs.filter p).map ToolkitDependency.func).foldlM (fun s api => f api s) s := by
  induction xs generalizing s with
  | nil => rfl
  | cons x xs ih =>
    rw [List.foldlM_cons]
    by_cases hp : p x = true
    · rw [if_pos hp, List.filter_cons_of_pos hp, List.map_cons, List.foldlM_cons]
      apply congrArg
      funext s'
      exact ih s'
    · rw [if_neg hp, List.filter_cons_of_neg hp]
      exact ih s

/-- One round of the initialisation, in terms of lists of APIs. -/
theorem toolkitInit_succ (fuel : ℕ) (api : Api) (s : ToolkitState Api) :
    toolkitInit dependencies (fuel+1) api s =
      if api ∈ s.apis then some s
      else
        (toolkitImports dependencies fuel (dependsOn dependencies api) s).bind fun s₁ =>
          toolkitImports dependencies fuel (importsOf dependencies api)
            (executeBody (toolkitImportRegister s₁ api) api) := by
  rw [toolkitInit, toolkitCheckImported, foldlM_guarded]
  by_cases h : api ∈ s.apis
  · rw [if_pos (decide_eq_true h), if_pos h]
  · rw [if_neg (by rwa [decide_eq_true_eq]), if_neg h]
    apply congrArg
    funext s₁
    exact foldlM_guarded _ _ _ _

theorem toolkitImports_cons (fuel : ℕ) (api : Api) (rest : List Api) (s : ToolkitState Api) :
    toolkitImports dependencies fuel (api :: rest) s =
      (toolkitInit dependencies fuel api s).bind (toolkitImports dependencies fuel rest) :=
  List.foldlM_cons

/-- What a function returns is what a terminating run does. -/
theorem runs_of_toolkitImports (fuel : ℕ) (requests : List Api) (s s' : ToolkitState Api)
    (h : toolkitImports dependencies fuel requests s = some s') :
    Runs dependencies requests s s' := by
  induction fuel generalizing requests s s' with
  | zero =>
    cases requests with
    | nil =>
      have hs : s = s' := Option.some.inj h
      rw [hs]
      exact .nil s'
    | cons api rest =>
      have hnone : toolkitImports dependencies 0 (api :: rest) s = none := rfl
      rw [hnone] at h
      exact absurd h.symm (Option.some_ne_none s')
  | succ fuel ih =>
    induction requests generalizing s with
    | nil =>
      have hs : s = s' := Option.some.inj h
      rw [hs]
      exact .nil s'
    | cons api rest ihrest =>
      rw [toolkitImports_cons, toolkitInit_succ] at h
      by_cases hin : api ∈ s.apis
      · rw [if_pos hin] at h
        exact .imported hin (ihrest s h)
      · rw [if_neg hin] at h
        obtain ⟨s₂, hcall, hrest⟩ := Option.bind_eq_some_iff.mp h
        obtain ⟨s₁, hdepends, himports⟩ := Option.bind_eq_some_iff.mp hcall
        exact .call hin (ih _ s s₁ hdepends) (ih _ _ s₂ himports) (ihrest s₂ hrest)

/-- The registered APIs as a set. -/
def ToolkitState.registered (s : ToolkitState Api) : Set Api := { a | a ∈ s.apis }

theorem registered_executeBody (s : ToolkitState Api) (api : Api) :
    (executeBody (toolkitImportRegister s api) api).registered = insert api s.registered := by
  ext a
  have hmem : a ∈ (executeBody (toolkitImportRegister s api) api).registered ↔
      a ∈ (toolkitImportRegister s api).apis := Iff.rfl
  have hold : a ∈ insert api s.registered ↔ a = api ∨ a ∈ s.apis := Iff.rfl
  rw [hmem, hold, apis_register]
  by_cases hreg : api ∈ s.apis
  · rw [if_pos hreg]
    constructor
    · exact Or.inr
    · intro h
      rcases h with h | h
      · rwa [h]
      · exact h
  · rw [if_neg hreg, List.mem_append, List.mem_singleton]
    exact or_comm

/-- The registered APIs afterwards are those that a search has visited. -/
theorem Runs.registered {requests : List Api} {s s' : ToolkitState Api}
    (h : Runs dependencies requests s s') :
    s'.registered = VisitedClosure.visited (Needs dependencies) s.registered requests := by
  induction h with
  | nil s => exact (VisitedClosure.visited_nil _).symm
  | @imported api rest s s' hin _ ih =>
    rw [ih, ← List.singleton_append, VisitedClosure.visited_append,
      VisitedClosure.visited_of_mem _ api hin]
  | @call api rest s s₁ s₂ s' hin _ _ _ ih₁ ih₂ ih₃ =>
    rw [ih₃, ih₂, registered_executeBody, ih₁, ← List.singleton_append,
      VisitedClosure.visited_append]
    congr 1
    exact VisitedClosure.visited_marked _ api hin _ _ fun _ => Iff.rfl

theorem Runs.subset {requests : List Api} {s s' : ToolkitState Api}
    (h : Runs dependencies requests s s') {a : Api} (ha : a ∈ s.apis) : a ∈ s'.apis := by
  have hmem : a ∈ s'.registered := by
    rw [h.registered]
    exact .old ha
  exact hmem

theorem Runs.requested {requests : List Api} {s s' : ToolkitState Api}
    (h : Runs dependencies requests s s') {a : Api} (ha : a ∈ requests) : a ∈ s'.apis := by
  have hmem : a ∈ s'.registered := by
    rw [h.registered]
    exact .start ha
  exact hmem

end LibAtrinik.Toolkit

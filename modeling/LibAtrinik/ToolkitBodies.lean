import LibAtrinik.ToolkitOrder
import Mathlib.Data.List.Perm.Subperm

namespace LibAtrinik.Toolkit

variable {Api : Type*} [DecidableEq Api]

/-- Initialising the APIs `requests` with the APIs in `R` registered gets to an API that is not
registered: `Enters R requests R' api`, where `R'` are the registered ones at that moment. -/
inductive Enters (dependencies : Api → List (ToolkitDependency Api)) :
    Set Api → List Api → Set Api → Api → Prop where
  | self {R : Set Api} {api : Api} {rest : List Api} (h : api ∉ R) :
      Enters dependencies R (api :: rest) R api
  | depends {R R' : Set Api} {api a : Api} {rest : List Api} (h : api ∉ R)
      (hd : Enters dependencies R (dependsOn dependencies api) R' a) :
      Enters dependencies R (api :: rest) R' a
  | imports {R R' : Set Api} {api a : Api} {rest : List Api} (h : api ∉ R)
      (hi : Enters dependencies
        (insert api (VisitedClosure.visited (Needs dependencies) R (dependsOn dependencies api)))
        (importsOf dependencies api) R' a) :
      Enters dependencies R (api :: rest) R' a
  | later {R R' : Set Api} {api a : Api} {rest : List Api}
      (hl : Enters dependencies (VisitedClosure.visited (Needs dependencies) R [api]) rest R' a) :
      Enters dependencies R (api :: rest) R' a

/-- No API that is entered can be reached again from its own dependencies, over APIs that are not
registered at that moment. -/
def NoReentry (dependencies : Api → List (ToolkitDependency Api)) (R : Set Api)
    (requests : List Api) : Prop :=
  ∀ R' a, Enters dependencies R requests R' a →
    a ∉ VisitedClosure.visited (Needs dependencies) R' (dependsOn dependencies a)

variable {dependencies : Api → List (ToolkitDependency Api)}

omit [DecidableEq Api] in
theorem noReentry_nil (R : Set Api) : NoReentry dependencies R [] := by
  intro R' a h
  cases h

omit [DecidableEq Api] in
theorem noReentry_imported (R : Set Api) (api : Api) (rest : List Api) (h : api ∈ R) :
    NoReentry dependencies R (api :: rest) ↔ NoReentry dependencies R rest := by
  constructor
  · intro hno R' a henter
    apply hno R' a
    apply Enters.later
    rwa [VisitedClosure.visited_of_mem R api h]
  · intro hno R' a henter
    cases henter with
    | self hnew => exact absurd h hnew
    | depends hnew _ => exact absurd h hnew
    | imports hnew _ => exact absurd h hnew
    | later hl =>
      rw [VisitedClosure.visited_of_mem R api h] at hl
      exact hno R' a hl

omit [DecidableEq Api] in
theorem noReentry_call (R : Set Api) (api : Api) (rest : List Api) (h : api ∉ R) :
    NoReentry dependencies R (api :: rest) ↔
      api ∉ VisitedClosure.visited (Needs dependencies) R (dependsOn dependencies api) ∧
      NoReentry dependencies R (dependsOn dependencies api) ∧
      NoReentry dependencies
        (insert api (VisitedClosure.visited (Needs dependencies) R (dependsOn dependencies api)))
        (importsOf dependencies api) ∧
      NoReentry dependencies (VisitedClosure.visited (Needs dependencies) R [api]) rest := by
  constructor
  · intro hno
    exact ⟨hno R api (.self h), fun R' a he => hno R' a (.depends h he),
      fun R' a he => hno R' a (.imports h he), fun R' a he => hno R' a (.later he)⟩
  · intro hno R' a henter
    cases henter with
    | self _ => exact hno.1
    | depends _ he => exact hno.2.1 R' a he
    | imports _ he => exact hno.2.2.1 R' a he
    | later he => exact hno.2.2.2 R' a he

theorem length_register (s : ToolkitState Api) (api : Api) :
    (executeBody (toolkitImportRegister s api) api).bodies.length = s.bodies.length+1 ∧
      (executeBody (toolkitImportRegister s api) api).apis.length =
        s.apis.length+(if api ∈ s.apis then 0 else 1) := by
  constructor
  · have hbodies : (executeBody (toolkitImportRegister s api) api).bodies =
        (toolkitImportRegister s api).bodies ++ [api] := rfl
    rw [hbodies, bodies_register, List.length_append, List.length_singleton]
  · have hapis : (executeBody (toolkitImportRegister s api) api).apis =
        (toolkitImportRegister s api).apis := rfl
    rw [hapis, apis_register]
    split_ifs
    · rfl
    · rw [List.length_append, List.length_singleton]

/-- Every run executes at least one body for each API that it registers, and no more than that
exactly if no API is entered again before it is registered. -/
theorem Runs.extra {requests : List Api} {s s' : ToolkitState Api}
    (h : Runs dependencies requests s s') :
    ∃ extra, s'.bodies.length+s.apis.length = s.bodies.length+s'.apis.length+extra ∧
      (extra = 0 ↔ NoReentry dependencies s.registered requests) := by
  induction h with
  | nil s => exact ⟨0, rfl, iff_of_true rfl (noReentry_nil _)⟩
  | @imported api rest s s' hin _ ih =>
    obtain ⟨extra, hlength, hextra⟩ := ih
    exact ⟨extra, hlength, hextra.trans (noReentry_imported _ api rest hin).symm⟩
  | @call api rest s s₁ s₂ s' hin hdepends himports _ ih₁ ih₂ ih₃ =>
    obtain ⟨extra₁, hlength₁, hextra₁⟩ := ih₁
    obtain ⟨extra₂, hlength₂, hextra₂⟩ := ih₂
    obtain ⟨extra₃, hlength₃, hextra₃⟩ := ih₃
    have hmid := length_register s₁ api
    have hset₁ := hdepends.registered
    have hset₂ : s₂.registered =
        VisitedClosure.visited (Needs dependencies) s.registered [api] := by
      rw [himports.registered, registered_executeBody, hset₁]
      exact VisitedClosure.visited_marked _ api hin _ _ fun _ => Iff.rfl
    have hagain : api ∈ s₁.apis ↔ api ∈ VisitedClosure.visited (Needs dependencies) s.registered
        (dependsOn dependencies api) := by
      rw [← hset₁]
      exact Iff.rfl
    rw [registered_executeBody, hset₁] at hextra₂
    rw [hset₂] at hextra₃
    rw [noReentry_call _ api rest hin, ← hagain, ← hextra₁, ← hextra₂, ← hextra₃]
    refine ⟨extra₁+(if api ∈ s₁.apis then 1 else 0)+extra₂+extra₃, ?_, ?_⟩
    · rw [hmid.1, hmid.2] at hlength₂
      split_ifs at hlength₂ ⊢ <;> omega
    · split_ifs with hmem
      · exact iff_of_false (by omega) fun hno => hno.1 hmem
      · exact ⟨fun hzero => ⟨hmem, by omega, by omega, by omega⟩, fun hno => by omega⟩

/-- The bodies of the registered APIs have run, each after the bodies of what the API depends
on. -/
structure Executed (dependencies : Api → List (ToolkitDependency Api)) (s : ToolkitState Api) :
    Prop where
  mem : ∀ a, a ∈ s.bodies ↔ a ∈ s.apis
  after : ∀ before a later, s.bodies = before ++ a :: later →
    ∀ b ∈ dependsOn dependencies a, b ∈ before

theorem Executed.body {s : ToolkitState Api} (h : Executed dependencies s) (api : Api)
    (hdepends : ∀ b ∈ dependsOn dependencies api, b ∈ s.apis) :
    Executed dependencies (executeBody (toolkitImportRegister s api) api) := by
  have hbodies : (executeBody (toolkitImportRegister s api) api).bodies = s.bodies ++ [api] := by
    rw [← bodies_register s api]
    rfl
  constructor
  · intro a
    have hapis : a ∈ (executeBody (toolkitImportRegister s api) api).apis ↔
        a ∈ (executeBody (toolkitImportRegister s api) api).registered := Iff.rfl
    have hmem := h.mem a
    rw [hapis, registered_executeBody, hbodies, List.mem_append, List.mem_singleton, hmem]
    exact or_comm
  · intro before a later hsplit b hb
    rw [hbodies] at hsplit
    rcases List.eq_nil_or_concat later with hnil | ⟨more, last, hlast⟩
    · rw [hnil] at hsplit
      obtain ⟨hbefore, hapi⟩ := List.append_inj' hsplit rfl
      rw [← hbefore]
      rw [← List.singleton_inj.mp hapi] at hb
      exact (h.mem b).mpr (hdepends b hb)
    · rw [hlast, List.concat_eq_append, ← List.cons_append, ← List.append_assoc] at hsplit
      exact h.after before a more (List.append_inj' hsplit rfl).1 b hb

theorem Runs.executed {requests : List Api} {s s' : ToolkitState Api}
    (h : Runs dependencies requests s s') (hs : Executed dependencies s) :
    Executed dependencies s' := by
  induction h with
  | nil => exact hs
  | imported _ _ ih => exact ih hs
  | @call api rest s s₁ s₂ s' hin hdepends _ _ ih₁ ih₂ ih₃ =>
    apply ih₃
    apply ih₂
    exact (ih₁ hs).body api fun b hb => hdepends.requested hb

/-- If the bodies are those of the APIs in a list without repetitions, each body has run once
exactly if there are as many. -/
theorem count_bodies_iff (apis bodies : List Api) (hnodup : apis.Nodup)
    (hmem : ∀ a, a ∈ bodies ↔ a ∈ apis) :
    (∀ a ∈ apis, bodies.count a = 1) ↔ bodies.length = apis.length := by
  constructor
  · intro hcount
    have hbodies : bodies.Nodup := by
      rw [List.nodup_iff_count_eq_one]
      intro a ha
      exact hcount a ((hmem a).mp ha)
    exact ((List.perm_ext_iff_of_nodup hbodies hnodup).mpr hmem).length_eq
  · intro hlength a ha
    have hsub : apis.Subperm bodies := hnodup.subperm fun b hb => (hmem b).mpr hb
    have hperm := hsub.perm_of_length_le (Nat.le_of_eq hlength)
    rw [← hperm.count_eq]
    exact List.count_eq_one_of_mem hnodup ha

/-- The body of each API that is needed runs once, and after the bodies of what it depends on:
this holds of a sequence of imports exactly if no API that is entered can be reached again from its
dependencies, over APIs that are not registered then. -/
theorem bodies_once_iff_noReentry [Fintype Api] (hacyclic : Acyclic dependencies)
    (requests : List Api) :
    ∃ fuel s, (∀ n ≥ fuel, toolkitImports dependencies n requests {} = some s) ∧
      ((∀ a, (∃ r ∈ requests, Relation.ReflTransGen (Needs dependencies) r a) →
          s.bodies.count a = 1 ∧ ∀ before later, s.bodies = before ++ a :: later →
            ∀ b ∈ dependsOn dependencies a, b ∈ before) ↔
        NoReentry dependencies ∅ requests) := by
  obtain ⟨fuel, s, hs, hmem, hcount, _⟩ := imports_registered hacyclic requests
  let start : ToolkitState Api := {}
  have hruns := runs_of_toolkitImports fuel requests start s (hs fuel (Nat.le_refl _))
  have hempty : start.registered = ∅ := Set.eq_empty_of_forall_notMem fun _ => List.not_mem_nil
  have hexecuted : Executed dependencies s := by
    apply hruns.executed
    refine ⟨fun a => Iff.rfl, fun before a later h => ?_⟩
    exact absurd h.symm (by simp [start])
  obtain ⟨extra, hlength, hextra⟩ := hruns.extra
  have hlength : s.bodies.length = s.apis.length+extra := by
    have hzero : start.apis.length = 0 ∧ start.bodies.length = 0 := ⟨rfl, rfl⟩
    omega
  have honce := count_bodies_iff s.apis s.bodies (hruns.ordered registered_nil).nodup
    hexecuted.mem
  refine ⟨fuel, s, hs, ?_⟩
  rw [← hempty, ← hextra]
  constructor
  · intro h
    have hsame := honce.mp fun a ha => (h a ((hmem a).mp ha)).1
    omega
  · intro h a ha
    have hone := honce.mpr (by omega) a ((hmem a).mpr ha)
    exact ⟨hone, fun before later => hexecuted.after before a later⟩

/-- The socket API only needs the datetime API, which needs nothing. -/
theorem bodies_once_iff_noReentry_socket :
    ∃ fuel s, (∀ n ≥ fuel, toolkitImports libraryDependencies n [.socket] {} = some s) ∧
      s.bodies.count .datetime = 1 := by
  obtain ⟨fuel, s, hs, hiff⟩ := bodies_once_iff_noReentry library_acyclic [.socket]
  have hdatetime : ∀ R, NoReentry libraryDependencies R [.datetime] := by
    intro R
    by_cases hin : LibraryApi.datetime ∈ R
    · exact (noReentry_imported R _ _ hin).mpr (noReentry_nil R)
    · apply (noReentry_call R _ _ hin).mpr
      refine ⟨?_, noReentry_nil _, noReentry_nil _, noReentry_nil _⟩
      change _ ∉ VisitedClosure.visited _ R []
      rwa [VisitedClosure.visited_nil]
  have hsocket : NoReentry libraryDependencies ∅ [.socket] := by
    apply (noReentry_call ∅ _ _ (Set.notMem_empty _)).mpr
    refine ⟨?_, hdatetime ∅, noReentry_nil _, noReentry_nil _⟩
    intro hback
    obtain ⟨b, hb, hreach⟩ := (VisitedClosure.visited_empty _ _).mp hback
    rw [List.mem_singleton.mp hb] at hreach
    rcases hreach.cases_head with hsame | ⟨c, hc, _⟩
    · exact absurd hsame (by decide)
    · exact hc.elim List.not_mem_nil List.not_mem_nil
  have hneeded : Needs libraryDependencies LibraryApi.socket .datetime := Or.inl (by decide)
  exact ⟨fuel, s, hs, (hiff.mpr hsocket .datetime ⟨.socket, by decide, .single hneeded⟩).1⟩

/-- Importing the logger first runs its body twice: it is entered again from the math API, which the
string API imports, before it is registered. -/
theorem logger_body_twice :
    ¬∀ requests fuel s, toolkitImports libraryDependencies fuel requests {} = some s →
      ∀ a, (∃ r ∈ requests, Relation.ReflTransGen (Needs libraryDependencies) r a) →
        s.bodies.count a = 1 ∧ ∀ before later, s.bodies = before ++ a :: later →
          ∀ b ∈ dependsOn libraryDependencies a, b ∈ before := by
  intro h
  have hlogger := h [.logger] 8 _ rfl .logger ⟨.logger, by decide, .refl⟩
  exact absurd hlogger.1 (by decide)

omit [DecidableEq Api] in
theorem Enters.not_mem {R R' : Set Api} {requests : List Api} {a : Api}
    (h : Enters dependencies R requests R' a) : a ∉ R' := by
  induction h with
  | self hnew => exact hnew
  | depends _ _ ih => exact ih
  | imports _ _ ih => exact ih
  | later _ ih => exact ih

omit [DecidableEq Api] in
/-- All sequences of imports are free of such a return exactly if no circle of dependencies and
imports goes through a dependency. -/
theorem noReentry_iff_acyclic :
    (∀ requests, NoReentry dependencies ∅ requests) ↔
      ∀ a, ∀ b ∈ dependsOn dependencies a, ¬Relation.ReflTransGen (Needs dependencies) b a := by
  constructor
  · intro h a b hb hreach
    apply h [a] ∅ a (.self (Set.notMem_empty a))
    exact (VisitedClosure.visited_empty _ a).mpr ⟨b, hb, hreach⟩
  · intro h requests R a henter hback
    have hnew := henter.not_mem
    -- whatever is found from the dependencies is registered already or reachable from them
    have hfound : ∀ c, VisitedClosure.Visited (Needs dependencies) R (dependsOn dependencies a) c →
        c ∈ R ∨ ∃ b ∈ dependsOn dependencies a, Relation.ReflTransGen (Needs dependencies) b c := by
      intro c hc
      induction hc with
      | old hold => exact Or.inl hold
      | start hstart => exact Or.inr ⟨_, hstart, .refl⟩
      | across _ hnot he ih =>
        obtain ⟨b, hb, hreach⟩ := ih.resolve_left hnot
        exact Or.inr ⟨b, hb, hreach.tail he⟩
    obtain ⟨b, hb, hreach⟩ := (hfound a hback).resolve_left hnew
    exact h a b hb hreach

end LibAtrinik.Toolkit

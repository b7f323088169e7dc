import Mathlib.Data.List.Basic

namespace LexicalPath

variable {α : Type*} (sep dot : α)

/-- A stack as text, with a separator before every component. -/
def rooted (stack : List (List α)) : List α := stack.flatMap fun component => sep::component

theorem rooted_append (front back : List (List α)) :
    rooted sep (front++back) = rooted sep front ++ rooted sep back :=
  List.flatMap_append

theorem rooted_singleton (component : List α) : rooted sep [component] = sep::component := by
  simp [rooted]

theorem rooted_cons (component : List α) (stack : List (List α)) :
    rooted sep (component::stack) = sep::component ++ rooted sep stack := by
  simp [rooted]

theorem rooted_eq_nil {stack : List (List α)} : rooted sep stack = [] ↔ stack = [] := by
  cases stack <;> simp [rooted]

/-- A stack that is not empty, joined with single separators behind one in front. -/
theorem rooted_eq_intercalate {stack : List (List α)} (h : stack ≠ []) :
    rooted sep stack = sep::[sep].intercalate stack := by
  induction stack with
  | nil => exact absurd rfl h
  | cons component stack ih =>
    rw [rooted_cons]
    cases stack with
    | nil => simp [rooted]
    | cons next stack =>
      rw [ih (by simp), List.intercalate_cons_cons]
      simp

variable [DecidableEq α]

/-- What stands between separators; several separators in a row count as one. -/
def components (path : List α) : List (List α) := (path.splitOn sep).filter fun c => c ≠ []

theorem components_nil : components sep ([] : List α) = [] := by
  simp [components]

/-- Text up to a separator, and the text after it, have their components one after the other. -/
theorem components_append_sep (front back : List α) :
    components sep (front++sep::back) = components sep front ++ components sep back := by
  simp only [components, List.splitOn_append_cons_self, List.filter_append]

theorem components_sep (path : List α) : components sep (sep::path) = components sep path := by
  simpa only [List.nil_append, components_nil] using components_append_sep sep [] path

theorem components_word {word : List α} (hsep : sep ∉ word) (hne : word ≠ []) :
    components sep word = [word] := by
  simp [components, List.splitOn_eq_singleton hsep, hne]

theorem components_dropWhile (path : List α) :
    components sep (path.dropWhile fun x => x = sep) = components sep path := by
  induction path with
  | nil => rfl
  | cons x path ih =>
    by_cases hx : x = sep
    · subst hx
      rw [List.dropWhile_cons_of_pos (by simp), ih, components_sep]
    · rw [List.dropWhile_cons_of_neg (by simpa using hx)]

/-- A component is not empty and holds no separator. -/
theorem of_mem_components {path component : List α} (h : component ∈ components sep path) :
    component ≠ [] ∧ sep ∉ component := by
  obtain ⟨hmem,hne⟩ := List.mem_filter.mp h
  refine ⟨by simpa using hne, ?_⟩
  clear h hne
  -- Along the text: a separator opens a new piece, anything else is put before the first piece.
  induction path generalizing component with
  | nil =>
    rw [List.splitOn_nil] at hmem
    simp [List.mem_singleton.mp hmem]
  | cons x path ih =>
    rw [List.splitOn_cons_eq_if_modifyHead] at hmem
    split at hmem
    · rcases List.mem_cons.mp hmem with rfl | hmem
      · simp
      · exact ih hmem
    · rename_i hx
      have hx : sep ≠ x := fun h => hx (by simp [h])
      cases hsplit : path.splitOn sep with
      | nil => exact absurd hsplit (List.splitOn_ne_nil sep path)
      | cons piece pieces =>
        rw [hsplit, List.modifyHead_cons] at hmem
        rcases List.mem_cons.mp hmem with rfl | hmem
        · intro hs
          rcases List.mem_cons.mp hs with hs | hs
          · exact hx hs
          · exact ih (hsplit ▸ List.mem_cons_self) hs
        · exact ih (hsplit ▸ List.mem_cons_of_mem piece hmem)

/-- One component: a single dot stays, two dots go up, and any other component goes down. -/
def resolveStep (stack : List (List α)) (component : List α) : List (List α) :=
  if component = [dot] then stack
  else if component = [dot,dot] then stack.dropLast
  else stack ++ [component]

/-- The stack of components to which a list of components leads from `base`. -/
def resolveFrom (base components : List (List α)) : List (List α) :=
  components.foldl (resolveStep dot) base

/-- A component that goes down. -/
def Descends (component : List α) : Prop := component ≠ [dot] ∧ component ≠ [dot,dot]

instance (component : List α) : Decidable (Descends dot component) :=
  inferInstanceAs (Decidable (_ ∧ _))

/-- A component that a normal form may hold. -/
structure Ordinary (component : List α) : Prop where
  nonempty : component ≠ []
  whole : sep ∉ component
  descends : Descends dot component

theorem resolveFrom_cons (base : List (List α)) (component : List α)
    (components : List (List α)) : resolveFrom dot base (component::components) =
      resolveFrom dot (resolveStep dot base component) components := rfl

theorem resolveStep_descends {component : List α} (h : Descends dot component)
    (stack : List (List α)) : resolveStep dot stack component = stack ++ [component] := by
  simp only [resolveStep, if_neg h.1, if_neg h.2]

/-- What every component of the path keeps, and the base has, every component of the result has. -/
theorem resolveFrom_forall {P : List α → Prop} {base components : List (List α)}
    (hbase : ∀ component ∈ base, P component)
    (hcomponents : ∀ component ∈ components, Descends dot component → P component) :
    ∀ component ∈ resolveFrom dot base components, P component := by
  induction components generalizing base with
  | nil => exact hbase
  | cons component components ih =>
    rw [resolveFrom_cons]
    refine ih ?_ fun c hc => hcomponents c (List.mem_cons_of_mem _ hc)
    unfold resolveStep
    split
    · exact hbase
    · split
      · exact fun c hc => hbase c ((List.dropLast_sublist base).subset hc)
      · intro c hc
        rcases List.mem_append.mp hc with hc | hc
        · exact hbase c hc
        · rw [List.mem_singleton.mp hc]
          exact hcomponents component List.mem_cons_self ⟨‹_›,‹_›⟩

/-- Components that all go down are stacked as they are. -/
theorem resolveFrom_descends {base components : List (List α)}
    (h : ∀ component ∈ components, Descends dot component) :
    resolveFrom dot base components = base ++ components := by
  induction components generalizing base with
  | nil => simp [resolveFrom]
  | cons component components ih =>
    rw [resolveFrom_cons, resolveStep_descends dot (h component List.mem_cons_self),
      ih fun c hc => h c (List.mem_cons_of_mem _ hc), List.append_assoc, List.singleton_append]

/-- Components that all go down or stay never leave the base, whichever of them are taken. -/
theorem prefix_resolveFrom {base components : List (List α)}
    (h : ∀ component ∈ components, component ≠ [dot,dot]) (n : ℕ) :
    base <+: resolveFrom dot base (components.take n) := by
  induction components generalizing base n with
  | nil => simp [resolveFrom]
  | cons component components ih =>
    cases n with
    | zero => simp [resolveFrom]
    | succ n =>
      rw [List.take_succ_cons, resolveFrom_cons]
      have hstep : base <+: resolveStep dot base component := by
        unfold resolveStep
        rw [if_neg (h component List.mem_cons_self)]
        split
        · exact List.prefix_refl base
        · exact List.prefix_append base _
      exact hstep.trans (ih (fun c hc => h c (List.mem_cons_of_mem _ hc)) n)

/-- From the root, components that never go down lead nowhere. -/
theorem resolveFrom_nil_of_dots {components : List (List α)}
    (h : ∀ component ∈ components, ¬ Descends dot component) :
    resolveFrom dot [] components = [] := by
  induction components with
  | nil => rfl
  | cons component components ih =>
    have hstep : resolveStep dot [] component = [] := by
      have := h component List.mem_cons_self
      unfold resolveStep
      split
      · rfl
      · split
        · rfl
        · exact absurd ⟨‹_›,‹_›⟩ this
    rw [resolveFrom_cons, hstep]
    exact ih fun c hc => h c (List.mem_cons_of_mem _ hc)

/-- Writing a stack as text and taking the text apart again gives the stack. -/
theorem components_rooted {stack : List (List α)}
    (h : ∀ component ∈ stack, component ≠ [] ∧ sep ∉ component) :
    components sep (rooted sep stack) = stack := by
  by_cases hne : stack = []
  · simp [hne, rooted, components_nil]
  · rw [rooted_eq_intercalate sep hne, components_sep, components,
      List.splitOn_intercalate sep (fun c hc => (h c hc).2) hne, List.filter_eq_self]
    intro c hc
    simpa using (h c hc).1

/-- The same below a component that stands before the first separator. -/
theorem components_append_rooted {lead : List α} {stack : List (List α)} (hsep : sep ∉ lead)
    (hne : lead ≠ []) (h : ∀ component ∈ stack, component ≠ [] ∧ sep ∉ component) :
    components sep (lead ++ rooted sep stack) = lead::stack := by
  by_cases hs : stack = []
  · simp only [hs, rooted, List.flatMap_nil, List.append_nil, components_word sep hsep hne]
  · rw [rooted_eq_intercalate sep hs, components_append_sep, components_word sep hsep hne,
      ← components_sep, ← rooted_eq_intercalate sep hs, components_rooted sep h,
      List.singleton_append]

end LexicalPath

import Mathlib.Logic.Relation
import Mathlib.Logic.Function.Basic
import Mathlib.Data.Finset.Card
import Mathlib.Data.List.Chain
import Mathlib.Algebra.Order.Group.Nat

/-! The parent pointers of a best-first search that may reopen nodes. Every node has a cost,
which is at least that of its parent, and a key, by which the frontier is ordered. Nothing
relates the key to the cost, except that a node whose cost is lowered does not move back in the
order. The result is that the least node of the frontier has no ancestor in the frontier. -/
namespace SearchForest

variable {ι K : Type*}

structure Forest (ι K : Type*) where
  parent : ι → Option ι
  cost : ι → ℕ
  key : ι → K
  frontier : ι → Prop

/-- Node `a` is a proper ancestor of node `g`. -/
def Forest.Above (f : Forest ι K) (a g : ι) : Prop :=
  Relation.TransGen (fun a g => f.parent g = some a) a g

theorem Forest.not_above_of_childless (f : Forest ι K) (n g : ι) (h : ∀ g, f.parent g ≠ some n) :
    ¬f.Above n g := by
  intro ha
  obtain ⟨g', hg', _⟩ := Relation.TransGen.head'_iff.mp ha
  exact h g' hg'

theorem Forest.not_above_root (f : Forest ι K) {r : ι} (hr : f.parent r = none) (a : ι) :
    ¬f.Above a r := by
  intro h
  obtain ⟨p, _, hp⟩ := Relation.TransGen.tail'_iff.mp h
  rw [hr] at hp
  cases hp

/-- What is above a node is its parent or above that. -/
theorem Forest.above_iff (f : Forest ι K) {i p a : ι} (hp : f.parent i = some p) :
    f.Above a i ↔ a = p ∨ f.Above a p := by
  constructor
  · intro h
    obtain ⟨q, hq, hpq⟩ := Relation.TransGen.tail'_iff.mp h
    obtain rfl : p = q := Option.some.inj (hp.symm.trans hpq)
    exact (Relation.reflTransGen_iff_eq_or_transGen.mp hq).imp Eq.symm id
  · rintro (rfl | h)
    · exact .single hp
    · exact h.tail hp

/-- Parent pointers do not run in circles, and costs do not fall along them. -/
structure Grounded (f : Forest ι K) : Prop where
  acyclic : ∀ a, ¬f.Above a a
  rising : ∀ g p, f.parent g = some p → f.cost p ≤ f.cost g

theorem Grounded.cost_le {f : Forest ι K} (h : Grounded f) {a g : ι} (ha : f.Above a g) :
    f.cost a ≤ f.cost g := by
  induction ha with
  | single hp => exact h.rising _ _ hp
  | tail _ hp ih => exact ih.trans (h.rising _ _ hp)

/-- Among finitely many nodes, the parents of a node lead to one without a parent, and no node is
met twice on the way. -/
theorem Grounded.exists_chain [DecidableEq ι] {f : Forest ι K} (h : Grounded f) (s : Finset ι)
    (i : ι) (hs : ∀ a, a = i ∨ f.Above a i → a ∈ s) :
    ∃ (l : List ι) (r : ι), l.head? = some i ∧ l.getLast? = some r ∧ f.parent r = none ∧
      l.IsChain (fun a b => f.parent a = some b) ∧ l.Nodup ∧ l.length ≤ s.card ∧
      ∀ a ∈ l, a = i ∨ f.Above a i := by
  induction s using Finset.strongInduction generalizing i with
  | H s ih =>
    have hi := hs i (Or.inl rfl)
    cases hp : f.parent i with
    | none =>
      exact ⟨[i], i, rfl, rfl, hp, .singleton i, by simp, Finset.card_pos.mpr ⟨i, hi⟩, by simp⟩
    | some p =>
      -- whatever is above the parent is not `i`
      have hup (a : ι) (ha : a = p ∨ f.Above a p) : a ∈ s.erase i := by
        have hai := (f.above_iff hp).mpr ha
        refine Finset.mem_erase.mpr ⟨?_, hs a (Or.inr hai)⟩
        rintro rfl
        exact h.acyclic a hai
      obtain ⟨l, r, hhead, hlast, hr, hlinked, hnodup, hlen, hmem⟩ :=
        ih _ (Finset.erase_ssubset hi) p hup
      have hl : l ≠ [] := by
        rintro rfl
        cases hhead
      refine ⟨i :: l, r, rfl, ?_, hr, ?_, ?_, ?_, ?_⟩
      · rw [List.getLast?_cons_of_ne_nil hl, hlast]
      · refine List.isChain_cons.mpr ⟨fun b hb => ?_, hlinked⟩
        rw [hhead] at hb
        exact hp.trans hb
      · refine List.nodup_cons.mpr ⟨fun hmi => ?_, hnodup⟩
        exact (Finset.mem_erase.mp (hup i (hmem i hmi))).1 rfl
      · have hcard := Finset.card_erase_add_one hi
        rw [List.length_cons]
        omega
      · intro a ha
        rcases List.mem_cons.mp ha with rfl | ha
        · exact Or.inl rfl
        · exact Or.inr ((f.above_iff hp).mpr (hmem a ha))

variable [DecidableEq ι]

/-- Node `n` joins the frontier as a child of `p`. -/
def Forest.attach (f : Forest ι K) (n p : ι) (cost : ℕ) (key : K) : Forest ι K where
  parent := Function.update f.parent n (some p)
  cost := Function.update f.cost n cost
  key := Function.update f.key n key
  frontier := Function.update f.frontier n True

/-- Node `c` leaves the frontier. -/
def Forest.close (f : Forest ι K) (c : ι) : Forest ι K :=
  { f with frontier := Function.update f.frontier c False }

section Fields

variable (f : Forest ι K) (n p : ι) (cost : ℕ) (key : K) (x : ι)

theorem Forest.attach_parent :
    (f.attach n p cost key).parent x = if x = n then some p else f.parent x :=
  Function.update_apply ..

theorem Forest.attach_cost : (f.attach n p cost key).cost x = if x = n then cost else f.cost x :=
  Function.update_apply ..

theorem Forest.attach_key : (f.attach n p cost key).key x = if x = n then key else f.key x :=
  Function.update_apply ..

theorem Forest.attach_frontier : (f.attach n p cost key).frontier x ↔ x = n ∨ f.frontier x := by
  change Function.update f.frontier n True x ↔ _
  rw [Function.update_apply]
  split_ifs with hx
  · simp [hx]
  · simp [hx]

theorem Forest.close_frontier : (f.close n).frontier x ↔ x ≠ n ∧ f.frontier x := by
  change Function.update f.frontier n False x ↔ _
  rw [Function.update_apply]
  split_ifs with hx
  · simp [hx]
  · simp [hx]

end Fields

/-- Whoever is above a node after `n` has been attached to `p` was above it before, or the
path from it leads through the new pointer. -/
theorem Forest.above_attach (f : Forest ι K) (n p : ι) (cost : ℕ) (key : K) {a g : ι}
    (h : (f.attach n p cost key).Above a g) :
    (g ≠ n ∧ f.Above a g) ∨ ((a = p ∨ f.Above a p) ∧ (g = n ∨ f.Above n g)) := by
  induction h with
  | @single g hp =>
    rw [f.attach_parent] at hp
    split_ifs at hp with hgn
    · exact Or.inr ⟨Or.inl (Option.some.inj hp).symm, Or.inl hgn⟩
    · exact Or.inl ⟨hgn, .single hp⟩
  | @tail b g _ hp ih =>
    rw [f.attach_parent] at hp
    split_ifs at hp with hgn
    · obtain rfl := Option.some.inj hp
      rcases ih with ⟨_, h⟩ | ⟨h, _⟩
      · exact Or.inr ⟨Or.inr h, Or.inl hgn⟩
      · exact Or.inr ⟨h, Or.inl hgn⟩
    · rcases ih with ⟨_, h⟩ | ⟨h, h' | h'⟩
      · exact Or.inl ⟨hgn, h.tail hp⟩
      · exact Or.inr ⟨h, Or.inr (.single (by rw [← h']; exact hp))⟩
      · exact Or.inr ⟨h, Or.inr (h'.tail hp)⟩

/-- A closed node above another one is above the node that `n` has been attached to, or as before. -/
theorem Forest.closed_above_attach (f : Forest ι K) (n p : ι) (cost : ℕ) (key : K) {a g : ι}
    (h : (f.attach n p cost key).Above a g) (ha : ¬(f.attach n p cost key).frontier a) :
    (a = p ∨ f.Above a p) ∨ (a ≠ n ∧ ¬f.frontier a ∧ g ≠ n ∧ f.Above a g) := by
  rw [f.attach_frontier] at ha
  rcases f.above_attach n p cost key h with ⟨hgn, h'⟩ | ⟨h', _⟩
  · exact Or.inr ⟨fun hn => ha (Or.inl hn), fun ho => ha (Or.inr ho), hgn, h'⟩
  · exact Or.inl h'

variable [LinearOrder K]

/-- Node `n` is new, or it is about to become cheaper without moving back in the order. -/
def Forest.Improves (f : Forest ι K) (n c : ι) (cost : ℕ) (key : K) : Prop :=
  ((∀ g, f.parent g ≠ some n) ∧ n ≠ c) ∨ (cost < f.cost n ∧ key ≤ f.key n)

omit [DecidableEq ι] in
/-- The node that improves is neither the node that it is attached to nor above it. -/
theorem Grounded.not_above_active {f : Forest ι K} (h : Grounded f) {n c : ι} {cost : ℕ} {key : K}
    (himp : f.Improves n c cost key) (hcost : f.cost c ≤ cost) : n ≠ c ∧ ¬f.Above n c := by
  rcases himp with ⟨hleaf, hne⟩ | ⟨hlt, _⟩
  · exact ⟨hne, f.not_above_of_childless n c hleaf⟩
  · constructor
    · rintro rfl
      omega
    · intro ha
      have := h.cost_le ha
      omega

theorem Grounded.attach {f : Forest ι K} (h : Grounded f) {n c : ι} {cost : ℕ} {key : K}
    (himp : f.Improves n c cost key) (hcost : f.cost c ≤ cost) :
    Grounded (f.attach n c cost key) := by
  obtain ⟨hne, hna⟩ := h.not_above_active himp hcost
  constructor
  · intro a ha
    rcases f.above_attach n c cost key ha with ⟨_, h'⟩ | ⟨h', h''⟩
    · exact h.acyclic a h'
    · rcases h' with rfl | h' <;> rcases h'' with rfl | h''
      · exact hne rfl
      · exact hna h''
      · exact hna h'
      · exact hna (h''.trans h')
  · intro g p hp
    rw [f.attach_parent] at hp
    rw [f.attach_cost, f.attach_cost]
    split_ifs at hp with hgn
    · obtain rfl := Option.some.inj hp
      rw [if_pos hgn, if_neg (Ne.symm hne)]
      exact hcost
    · rw [if_neg hgn]
      split_ifs with hpn
      · subst hpn
        rcases himp with ⟨hleaf, _⟩ | ⟨hlt, _⟩
        · exact absurd hp (hleaf g)
        · have := h.rising g p hp
          omega
      · exact h.rising g p hp

/-- Node `a` has left the frontier, but a descendant of it in the frontier comes before it.
Then whatever else comes before `a` is too expensive to lower its cost. -/
def Forest.Guarded (f : Forest ι K) (a : ι) : Prop :=
  ∀ o, f.frontier o → f.key o < f.key a → f.cost a ≤ f.cost o

/-- A node that is no cheaper than `a` may be attached. -/
theorem Forest.Guarded.attach {f : Forest ι K} {a n : ι} (hg : f.Guarded a) (p : ι) {cost : ℕ}
    {key : K} (ha : f.cost a ≤ cost) (han : a ≠ n) : (f.attach n p cost key).Guarded a := by
  intro o ho hk
  rw [f.attach_cost, f.attach_cost, if_neg han]
  split_ifs with hon
  · exact ha
  · rw [f.attach_key, f.attach_key, if_neg hon, if_neg han] at hk
    exact hg o (((f.attach_frontier ..).mp ho).resolve_left hon) hk

/-- The invariant between two expansions. -/
structure Resting (f : Forest ι K) : Prop extends Grounded f where
  order : ∀ a g, f.Above a g → f.frontier a → f.frontier g → f.key a ≤ f.key g
  guarded : ∀ a g, f.Above a g → ¬f.frontier a → f.frontier g → f.key g < f.key a → f.Guarded a

/-- The invariant while the transitions of `c` are being relaxed. -/
structure Expanding (f : Forest ι K) (c : ι) : Prop extends Resting f where
  active : ¬f.frontier c
  later : ∀ g, f.frontier g → f.key c < f.key g ∨ f.parent g = some c
  above : ∀ a, f.Above a c → ¬f.frontier a
  cheap : ∀ a g, f.Above a g → ¬f.frontier a → f.frontier g → f.key g < f.key a →
    f.cost a ≤ f.cost c
  guardedAbove : ∀ a, f.Above a c → f.key c < f.key a → f.Guarded a

omit [DecidableEq ι] in
/-- The least node of the frontier has no ancestor in the frontier. -/
theorem Resting.above_next {f : Forest ι K} (h : Resting f) {c : ι} (hc : f.frontier c)
    (hmin : ∀ g, f.frontier g → g ≠ c → f.key c < f.key g) (a : ι) (ha : f.Above a c) :
    ¬f.frontier a := by
  intro ho
  have hne : a ≠ c := by
    rintro rfl
    exact h.acyclic a ha
  exact absurd (h.order a c ha ho hc) (not_le.mpr (hmin a ho hne))

theorem Resting.close {f : Forest ι K} (h : Resting f) {c : ι} (hc : f.frontier c)
    (hmin : ∀ g, f.frontier g → g ≠ c → f.key c < f.key g) : Expanding (f.close c) c := by
  have hfront (x : ι) := f.close_frontier c x
  -- an ancestor that has left the frontier is not `c`: what is left comes after `c`
  have hold (a g : ι) (hg : (f.close c).frontier g) (ha : ¬(f.close c).frontier a)
      (hk : f.key g < f.key a) : ¬f.frontier a := by
    intro ho
    have hac : a = c := by
      by_contra hne
      exact ha ((hfront a).mpr ⟨hne, ho⟩)
    obtain ⟨hgc, hgo⟩ := (hfront g).mp hg
    rw [hac] at hk
    exact lt_asymm hk (hmin g hgo hgc)
  have hguard (a : ι) (hg : f.Guarded a) : (f.close c).Guarded a :=
    fun o ho hk => hg o ((hfront o).mp ho).2 hk
  refine ⟨⟨⟨h.acyclic, h.rising⟩, ?_, ?_⟩, ?_, ?_, ?_, ?_, ?_⟩
  · intro a g ha hao hgo
    exact h.order a g ha ((hfront a).mp hao).2 ((hfront g).mp hgo).2
  · intro a g ha hac hg hk
    exact hguard a (h.guarded a g ha (hold a g hg hac hk) ((hfront g).mp hg).2 hk)
  · exact fun ho => ((hfront c).mp ho).1 rfl
  · intro g hg
    obtain ⟨hgc, hgo⟩ := (hfront g).mp hg
    exact Or.inl (hmin g hgo hgc)
  · intro a ha ho
    exact h.above_next hc hmin a ha ((hfront a).mp ho).2
  · intro a g ha hac hg hk
    obtain ⟨hgc, hgo⟩ := (hfront g).mp hg
    exact h.guarded a g ha (hold a g hg hac hk) hgo hk c hc ((hmin g hgo hgc).trans hk)
  · intro a ha hk
    exact hguard a (h.guarded a c ha (h.above_next hc hmin a ha) hc hk)

section Attach

variable {f : Forest ι K} {c n : ι} {cost : ℕ} {key : K} (h : Expanding f c)
  (himp : f.Improves n c cost key) (hcost : f.cost c ≤ cost)
include h himp hcost

omit [DecidableEq ι] in
/-- The node being expanded and those above it are closed, and are not the node to be attached. -/
theorem Expanding.closed {a : ι} (ha : a = c ∨ f.Above a c) :
    a ≠ n ∧ ¬f.frontier a ∧ f.cost a ≤ f.cost c := by
  obtain ⟨hne, hna⟩ := h.not_above_active himp hcost
  rcases ha with rfl | ha
  · exact ⟨hne.symm, h.active, le_rfl⟩
  · refine ⟨?_, h.above a ha, h.cost_le ha⟩
    rintro rfl
    exact hna ha

theorem Expanding.above_of_attach {a : ι} (ha : (f.attach n c cost key).Above a c) :
    f.Above a c := by
  obtain ⟨hne, hna⟩ := h.not_above_active himp hcost
  rcases f.above_attach n c cost key ha with ⟨_, h'⟩ | ⟨_, rfl | h'⟩
  · exact h'
  · exact absurd rfl hne
  · exact absurd h' hna

/-- What is in the frontier comes after the node being expanded, or is a child of it. -/
theorem Expanding.attach_later {g : ι} (hg : (f.attach n c cost key).frontier g) :
    (f.attach n c cost key).key c < (f.attach n c cost key).key g ∨
      (f.attach n c cost key).parent g = some c := by
  obtain ⟨hne, _⟩ := h.not_above_active himp hcost
  rw [f.attach_parent]
  split_ifs with hgn
  · exact Or.inr rfl
  · rw [f.attach_key, f.attach_key, if_neg hne.symm, if_neg hgn]
    exact h.later g (((f.attach_frontier ..).mp hg).resolve_left hgn)

theorem Expanding.attach_guardedAbove {a : ι} (ha : a = c ∨ f.Above a c) :
    (f.attach n c cost key).Guarded a := by
  obtain ⟨hne, _⟩ := h.not_above_active himp hcost
  obtain ⟨han, _, hac⟩ := h.closed himp hcost ha
  by_cases hk : f.key c < f.key a
  · rcases ha with rfl | ha
    · exact absurd hk (lt_irrefl _)
    · exact (h.guardedAbove a ha hk).attach c (hac.trans hcost) han
  · -- what comes before `a` also comes before `c`, so it is a child of `c`
    intro o ho hlt
    have hoc : (f.attach n c cost key).key o < (f.attach n c cost key).key c := by
      rw [f.attach_key _ _ _ _ a, if_neg han] at hlt
      rw [f.attach_key _ _ _ _ c, if_neg hne.symm]
      exact lt_of_lt_of_le hlt (not_lt.mp hk)
    rcases h.attach_later himp hcost ho with h' | h'
    · exact absurd h' (lt_asymm hoc)
    · have hrising := (h.toGrounded.attach himp hcost).rising o c h'
      rw [f.attach_cost _ _ _ _ c, if_neg hne.symm] at hrising
      rw [f.attach_cost _ _ _ _ a, if_neg han]
      exact hac.trans hrising

/-- A node of the frontier does not come before one above it. -/
theorem Expanding.attach_order {a g : ι} (ha : (f.attach n c cost key).Above a g)
    (hao : (f.attach n c cost key).frontier a) (hgo : (f.attach n c cost key).frontier g) :
    (f.attach n c cost key).key a ≤ (f.attach n c cost key).key g := by
  rw [f.attach_frontier] at hao hgo
  rcases f.above_attach n c cost key ha with ⟨hgn, h'⟩ | ⟨h', _⟩
  · have hgo' := hgo.resolve_left hgn
    rw [f.attach_key, f.attach_key, if_neg hgn]
    split_ifs with han
    · subst han
      rcases himp with ⟨hleaf, _⟩ | ⟨hlt, hkey⟩
      · exact absurd h' (f.not_above_of_childless a g hleaf)
      · by_cases hopen : f.frontier a
        · exact hkey.trans (h.order a g h' hopen hgo')
        · -- otherwise `a` would have been too cheap to be improved
          by_contra hgt
          have hk : f.key g < f.key a := lt_of_lt_of_le (not_le.mp hgt) hkey
          have := h.cheap a g h' hopen hgo' hk
          omega
    · exact h.order a g h' (hao.resolve_left han) hgo'
  · obtain ⟨han, hac, _⟩ := h.closed himp hcost h'
    exact absurd (hao.resolve_left han) hac

/-- Attaching a node to the one being expanded. -/
theorem Expanding.attach : Expanding (f.attach n c cost key) c := by
  obtain ⟨hne, _⟩ := h.not_above_active himp hcost
  refine ⟨⟨h.toGrounded.attach himp hcost, ?_, ?_⟩, ?_, ?_, ?_, ?_, ?_⟩
  · intro a g ha hao hgo
    exact h.attach_order himp hcost ha hao hgo
  · intro a g ha hao hgo hk
    rcases f.closed_above_attach n c cost key ha hao with h' | ⟨han, hac, hgn, h'⟩
    · exact h.attach_guardedAbove himp hcost h'
    · rw [f.attach_key, f.attach_key, if_neg hgn, if_neg han] at hk
      have hgo' := ((f.attach_frontier ..).mp hgo).resolve_left hgn
      exact (h.guarded a g h' hac hgo' hk).attach c ((h.cheap a g h' hac hgo' hk).trans hcost) han
  · intro ho
    exact h.active (((f.attach_frontier ..).mp ho).resolve_left hne.symm)
  · intro g hg
    exact h.attach_later himp hcost hg
  · intro a ha ho
    obtain ⟨han, hac, _⟩ := h.closed himp hcost (Or.inr (h.above_of_attach himp hcost ha))
    exact hac (((f.attach_frontier ..).mp ho).resolve_left han)
  · intro a g ha hao hgo hk
    rw [f.attach_cost _ _ _ _ c, if_neg hne.symm]
    rcases f.closed_above_attach n c cost key ha hao with h' | ⟨han, hac, hgn, h'⟩
    · obtain ⟨han, _, hle⟩ := h.closed himp hcost h'
      rw [f.attach_cost, if_neg han]
      exact hle
    · rw [f.attach_key, f.attach_key, if_neg hgn, if_neg han] at hk
      rw [f.attach_cost, if_neg han]
      exact h.cheap a g h' hac (((f.attach_frontier ..).mp hgo).resolve_left hgn) hk
  · intro a ha _
    exact h.attach_guardedAbove himp hcost (Or.inr (h.above_of_attach himp hcost ha))

end Attach

end SearchForest

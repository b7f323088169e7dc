import Mathlib.Data.List.Basic
import Mathlib.Data.List.Nodup

/-! Singly linked lists whose links are kept in the nodes. A pointer is of some type `π`, and
`ptr a` points to the node `a`; what else there is in `π` (a null pointer, an end marker) may end a
list. The link of a node is `none` when there is no such node in memory. -/
namespace IntrusiveList

variable {α π : Type*} (ptr : α → π)

/-- Following the links from the pointer `p` one meets the nodes `l` and arrives at `q`. -/
def Seg (next : α → Option π) : π → List α → π → Prop
  | p, [], q => p = q
  | p, a :: l, q => p = ptr a ∧ ∃ r, next a = some r ∧ Seg next r l q

variable {ptr} {next next' : α → Option π} {p q : π} {l l' : List α}

theorem seg_nil : Seg ptr next p [] q ↔ p = q := Iff.rfl

theorem seg_cons (a : α) :
    Seg ptr next p (a :: l) q ↔ p = ptr a ∧ ∃ r, next a = some r ∧ Seg ptr next r l q := Iff.rfl

theorem seg_append :
    Seg ptr next p (l ++ l') q ↔ ∃ r, Seg ptr next p l r ∧ Seg ptr next r l' q := by
  induction l generalizing p with
  | nil =>
    constructor
    · intro h
      exact ⟨p, rfl, h⟩
    · intro h
      obtain ⟨r, hr, h⟩ := h
      rwa [seg_nil.mp hr]
  | cons a l ih =>
    rw [List.cons_append, seg_cons]
    constructor
    · intro h
      obtain ⟨hp, r, hr, hrest⟩ := h
      obtain ⟨t, hfirst, hsecond⟩ := ih.mp hrest
      exact ⟨t, ⟨hp, r, hr, hfirst⟩, hsecond⟩
    · intro h
      obtain ⟨t, ⟨hp, r, hr, hfirst⟩, hsecond⟩ := h
      exact ⟨hp, r, hr, ih.mpr ⟨t, hfirst, hsecond⟩⟩

/-- A segment only depends on the links of its own nodes. -/
theorem Seg.congr (h : Seg ptr next p l q) (hsame : ∀ a ∈ l, next' a = next a) :
    Seg ptr next' p l q := by
  induction l generalizing p with
  | nil => exact h
  | cons a l ih =>
    obtain ⟨hp, r, hr, hrest⟩ := h
    have ha : next' a = some r := by rw [hsame a List.mem_cons_self, hr]
    exact ⟨hp, r, ha, ih hrest fun b hb => hsame b (List.mem_cons_of_mem a hb)⟩

theorem Seg.link (h : Seg ptr next p l q) (a : α) (ha : a ∈ l) : ∃ r, next a = some r := by
  obtain ⟨before, later, rfl⟩ := List.append_of_mem ha
  obtain ⟨_, _, hsplit⟩ := seg_append.mp h
  obtain ⟨_, r, hr, _⟩ := hsplit
  exact ⟨r, hr⟩

section End

variable (hptr : Function.Injective ptr) (hend : ∀ a r, next a = some r → ptr a ≠ q)
include hptr hend

/-- What the links lead to is determined by where they end. -/
theorem Seg.unique (h : Seg ptr next p l q) (h' : Seg ptr next p l' q) : l = l' := by
  induction l generalizing p l' with
  | nil =>
    cases l' with
    | nil => rfl
    | cons a l' =>
      obtain ⟨hpa, r, hr, _⟩ := h'
      have hp : p = q := h
      exact absurd (hpa.symm.trans hp) (hend a r hr)
  | cons a l ih =>
    cases l' with
    | nil =>
      obtain ⟨hpa, r, hr, _⟩ := h
      have hp : p = q := h'
      exact absurd (hpa.symm.trans hp) (hend a r hr)
    | cons b l' =>
      obtain ⟨hpa, r, hr, hrest⟩ := h
      obtain ⟨hpb, t, ht, hrest'⟩ := h'
      have hab : a = b := hptr (hpa.symm.trans hpb)
      rw [← hab, hr] at ht
      rw [← Option.some.inj ht] at hrest'
      rw [hab, ih hrest hrest']

/-- A list that ends has no circle. -/
theorem Seg.nodup (h : Seg ptr next p l q) : l.Nodup := by
  induction l generalizing p with
  | nil => exact List.nodup_nil
  | cons a l ih =>
    obtain ⟨_, r, hr, hrest⟩ := h
    apply List.nodup_cons.mpr
    refine ⟨?_, ih hrest⟩
    intro ha
    -- the second occurrence would be followed by the same nodes as the first one
    obtain ⟨before, later, hsplit⟩ := List.append_of_mem ha
    rw [hsplit] at hrest
    obtain ⟨t, _, hagain⟩ := seg_append.mp hrest
    have hfirst : Seg ptr next t (a :: (before ++ a :: later)) q := ⟨hagain.1, r, hr, hrest⟩
    have hsame := congrArg List.length (Seg.unique hptr hend hfirst hagain)
    simp only [List.length_cons, List.length_append] at hsame
    omega

end End

/-- A node that is not in the list becomes its head. -/
theorem Seg.push (h : Seg ptr next p l q) (a : α) (ha : a ∉ l) (hlink : next' a = some p)
    (hsame : ∀ b, b ≠ a → next' b = next b) : Seg ptr next' (ptr a) (a :: l) q := by
  refine ⟨rfl, p, hlink, h.congr fun b hb => hsame b ?_⟩
  intro hba
  exact ha (hba ▸ hb)

/-- The last node of a segment gets another link. -/
theorem Seg.retarget (a : α) (q' : π) (h : Seg ptr next p (l ++ [a]) q) (hlink : next' a = some q')
    (hsame : ∀ b ∈ l, next' b = next b) : Seg ptr next' p (l ++ [a]) q' := by
  obtain ⟨r, hfirst, hr, _, _, _⟩ := seg_append.mp h
  exact seg_append.mpr ⟨r, hfirst.congr hsame, hr, q', hlink, rfl⟩

/-- The node after `b` is taken out: `b` gets its link. -/
theorem Seg.unlink (b a : α) (h : Seg ptr next p (l ++ b :: a :: l') q)
    (hnodup : (l ++ b :: a :: l').Nodup) (hlink : next' b = next a)
    (hsame : ∀ c, c ≠ b → c ≠ a → next' c = next c) : Seg ptr next' p (l ++ b :: l') q := by
  obtain ⟨t, hfirst, hp, r, _, hsecond⟩ := seg_append.mp h
  obtain ⟨_, s, hs, hrest⟩ := hsecond
  rw [List.nodup_append] at hnodup
  obtain ⟨_, hlater, hapart⟩ := hnodup
  rw [List.nodup_cons, List.nodup_cons] at hlater
  obtain ⟨hb, ha, _⟩ := hlater
  apply seg_append.mpr
  refine ⟨t, hfirst.congr fun c hc => ?_, hp, s, hlink.trans hs, hrest.congr fun c hc => ?_⟩
  · exact hsame c (hapart c hc b List.mem_cons_self)
      (hapart c hc a (List.mem_cons_of_mem _ List.mem_cons_self))
  · apply hsame c
    · intro hcb
      exact hb (List.mem_cons_of_mem _ (hcb ▸ hc))
    · intro hca
      exact ha (hca ▸ hc)

/-- The head is taken out. -/
theorem Seg.pop (a : α) (r : π) (h : Seg ptr next p (a :: l) q) (hnodup : (a :: l).Nodup)
    (hlink : next a = some r) (hsame : ∀ c, c ≠ a → next' c = next c) :
    Seg ptr next' r l q := by
  obtain ⟨_, s, hs, hrest⟩ := h
  have hrs : s = r := Option.some.inj (hs.symm.trans hlink)
  rw [← hrs]
  apply hrest.congr
  intro c hc
  apply hsame c
  intro hca
  exact (List.nodup_cons.mp hnodup).1 (hca ▸ hc)

end IntrusiveList

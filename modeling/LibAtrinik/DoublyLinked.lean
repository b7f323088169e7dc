import LibAtrinik.IntrusiveList

/-! Doubly linked lists whose links are kept in the nodes. `node a previous next` says that there is
a node `a` in memory with these links. -/
namespace DoublyLinked

variable {α : Type*}

/-- The pointer `p` and the links after it lead over the nodes `l` to the pointer `q`. The first of
the nodes has `previous` in front of it, and `last` is what is in front of `q`. -/
def Seg (node : α → Option α → Option α → Prop) :
    Option α → Option α → List α → Option α → Option α → Prop
  | previous, p, [], last, q => previous = last ∧ p = q
  | previous, p, a :: l, last, q =>
    p = some a ∧ ∃ r, node a previous r ∧ Seg node (some a) r l last q

/-- The pointer `p` leads over the nodes `l` to the end. -/
def Chain (node : α → Option α → Option α → Prop) (p : Option α) (l : List α) : Prop :=
  ∃ last, Seg node none p l last none

variable {node node' : α → Option α → Option α → Prop} {previous p last q : Option α} {l l' : List α}

theorem seg_append :
    Seg node previous p (l ++ l') last q ↔
      ∃ m r, Seg node previous p l m r ∧ Seg node m r l' last q := by
  induction l generalizing previous p with
  | nil =>
    constructor
    · intro h
      exact ⟨previous, p, ⟨rfl, rfl⟩, h⟩
    · intro h
      obtain ⟨m, r, ⟨hm, hr⟩, h⟩ := h
      rwa [hm, hr]
  | cons a l ih =>
    constructor
    · intro h
      obtain ⟨hp, r, hnode, hrest⟩ := h
      obtain ⟨m, t, hfirst, hsecond⟩ := ih.mp hrest
      exact ⟨m, t, ⟨hp, r, hnode, hfirst⟩, hsecond⟩
    · intro h
      obtain ⟨m, t, ⟨hp, r, hnode, hfirst⟩, hsecond⟩ := h
      exact ⟨hp, r, hnode, ih.mpr ⟨m, t, hfirst, hsecond⟩⟩

/-- A segment only depends on its own nodes. -/
theorem Seg.congr (h : Seg node previous p l last q)
    (hsame : ∀ a ∈ l, ∀ m r, node a m r → node' a m r) : Seg node' previous p l last q := by
  induction l generalizing previous p with
  | nil => exact h
  | cons a l ih =>
    obtain ⟨hp, r, hnode, hrest⟩ := h
    have hlater := ih hrest fun b hb => hsame b (List.mem_cons_of_mem a hb)
    exact ⟨hp, r, hsame a List.mem_cons_self _ r hnode, hlater⟩

theorem Seg.last_eq (a : α) (h : Seg node previous p (l ++ [a]) last q) : last = some a := by
  obtain ⟨_, _, _, _, _, _, hlast, _⟩ := seg_append.mp h
  exact hlast.symm

/-- What is in front of the end is the last node. -/
theorem Seg.last_mem (h : Seg node previous p l last q) (hl : l ≠ []) :
    ∃ before a, l = before ++ [a] ∧ last = some a := by
  obtain ⟨before, a, hsplit⟩ := List.eq_nil_or_concat l |>.resolve_left hl
  rw [List.concat_eq_append] at hsplit
  rw [hsplit] at h
  exact ⟨before, a, hsplit, h.last_eq a⟩

theorem Seg.eq_nil (h : Seg node previous p l none q) : l = [] := by
  by_contra hl
  obtain ⟨_, a, _, hlast⟩ := h.last_mem hl
  exact absurd hlast.symm (Option.some_ne_none a)

/-- The last node of a segment gets another link. -/
theorem Seg.retarget (a : α) (q' : Option α) (h : Seg node previous p (l ++ [a]) last q)
    (ha : ∀ m, node a m q → node' a m q') (hsame : ∀ b ∈ l, ∀ m r, node b m r → node' b m r) :
    Seg node' previous p (l ++ [a]) last q' := by
  obtain ⟨m, r, hfirst, hr, s, hnode, hlast, hs⟩ := seg_append.mp h
  rw [hs] at hnode
  exact seg_append.mpr ⟨m, r, hfirst.congr hsame, hr, q', ha m hnode, hlast, rfl⟩

/-- A node of a segment lies between its neighbours. -/
theorem Seg.split (a : α) (h : Seg node previous p (l ++ a :: l') last q) :
    ∃ m r, Seg node previous p l m (some a) ∧ node a m r ∧ Seg node (some a) r l' last q := by
  obtain ⟨m, t, hfirst, ht, r, hnode, hrest⟩ := seg_append.mp h
  rw [ht] at hfirst
  exact ⟨m, r, hfirst, hnode, hrest⟩

theorem Chain.congr (h : Chain node p l) (hsame : ∀ a ∈ l, ∀ m r, node a m r → node' a m r) :
    Chain node' p l := by
  obtain ⟨last, h⟩ := h
  exact ⟨last, h.congr hsame⟩

/-- Followed in one direction only, a doubly linked list is a singly linked one. -/
theorem Seg.single {next : α → Option (Option α)} (h : Seg node previous p l last q)
    (hnext : ∀ a m r, node a m r → next a = some r) : IntrusiveList.Seg some next p l q := by
  induction l generalizing previous p with
  | nil => exact h.2
  | cons a l ih =>
    obtain ⟨hp, r, hnode, hrest⟩ := h
    exact ⟨hp, r, hnext a _ r hnode, ih hrest⟩

theorem Chain.nodup (next : α → Option (Option α)) (h : Chain node p l)
    (hnext : ∀ a m r, node a m r → next a = some r) : l.Nodup := by
  obtain ⟨last, h⟩ := h
  exact (h.single hnext).nodup (fun _ _ => Option.some.inj) fun _ _ _ => Option.some_ne_none _

end DoublyLinked

import Mathlib.Data.Nat.Notation
import Mathlib.Logic.Function.Basic

namespace Interning

variable {α ι : Type*}

/-- The handles in use, each with its value and the number of its references. -/
abbrev Table (α ι : Type*) := ι → Option (α × ℕ)

/-- The number of references of a handle. -/
def Table.references (t : Table α ι) (id : ι) : ℕ := ((t id).map Prod.snd).getD 0

theorem references_eq {t : Table α ι} {id : ι} {value : α} {n : ℕ} (h : t id = some (value, n)) :
    t.references id = n := by
  unfold Table.references
  rw [h]
  rfl

/-- What happens to a table: a reference to a value is asked for, a reference to a handle is added
or given back, or the handle of a value is looked up. -/
inductive Event (α ι : Type*) where
  | acquire (value : α) (id : ι)
  | share (id : ι)
  | release (id : ι)
  | find (value : α) (answer : Option ι)

/-- There is one handle for each value, and only for values in use. -/
structure Table.Sound (t : Table α ι) : Prop where
  unique : ∀ id id' value n n', t id = some (value, n) → t id' = some (value, n') → id = id'
  positive : ∀ id value, t id ≠ some (value, 0)

variable [DecidableEq ι]

/-- The references after an event. -/
def Event.count (refs : ι → ℕ) : Event α ι → ι → ℕ
  | .acquire _ id => Function.update refs id (refs id+1)
  | .share id => Function.update refs id (refs id+1)
  | .release id => Function.update refs id (refs id-1)
  | .find _ _ => refs

inductive Step (t : Table α ι) : Event α ι → Table α ι → Prop where
  | known (value : α) (n : ℕ) (id : ι) (h : t id = some (value, n)) :
      Step t (.acquire value id) (Function.update t id (some (value, n+1)))
  | new (value : α) (id : ι) (h : ∀ id n, t id ≠ some (value, n)) (hfresh : t id = none) :
      Step t (.acquire value id) (Function.update t id (some (value, 1)))
  | share (value : α) (n : ℕ) (id : ι) (h : t id = some (value, n)) :
      Step t (.share id) (Function.update t id (some (value, n+1)))
  | release (value : α) (n : ℕ) (id : ι) (h : t id = some (value, n+2)) :
      Step t (.release id) (Function.update t id (some (value, n+1)))
  | last (value : α) (id : ι) (h : t id = some (value, 1)) :
      Step t (.release id) (Function.update t id none)
  | found (value : α) (n : ℕ) (id : ι) (h : t id = some (value, n)) :
      Step t (.find value (some id)) t
  | absent (value : α) (h : ∀ id n, t id ≠ some (value, n)) : Step t (.find value none) t

variable {t t' : Table α ι} {event : Event α ι}

/-- A handle whose count changes keeps its value. -/
theorem Table.Sound.recount (h : t.Sound) (id : ι) (value : α) (n m : ℕ) (hid : t id = some (value, n)) :
    Table.Sound (Function.update t id (some (value, m+1))) := by
  have hcases : ∀ other v k, Function.update t id (some (value, m+1)) other = some (v, k) →
      (other = id ∧ v = value ∧ k = m+1) ∨ (other ≠ id ∧ t other = some (v, k)) := by
    intro other v k hother
    by_cases hsame : other = id
    · rw [hsame, Function.update_self] at hother
      have hpair := Prod.mk.inj (Option.some.inj hother)
      exact Or.inl ⟨hsame, hpair.1.symm, hpair.2.symm⟩
    · rw [Function.update_of_ne hsame] at hother
      exact Or.inr ⟨hsame, hother⟩
  constructor
  · intro a b v k k' ha hb
    rcases hcases a v k ha with ⟨hsame, hv, _⟩ | ⟨_, holda⟩
    · rcases hcases b v k' hb with ⟨hsame', _⟩ | ⟨_, holdb⟩
      · rw [hsame, hsame']
      · rw [hsame]
        exact h.unique id b value n k' hid (hv ▸ holdb)
    · rcases hcases b v k' hb with ⟨hsame', hv, _⟩ | ⟨_, holdb⟩
      · rw [hsame']
        exact h.unique a id value k n (hv ▸ holda) hid
      · exact h.unique a b v k k' holda holdb
  · intro other v hother
    rcases hcases other v 0 hother with ⟨_, _, hzero⟩ | ⟨_, hold⟩
    · exact absurd hzero.symm (Nat.succ_ne_zero m)
    · exact h.positive other v hold

theorem Table.Sound.insert (h : t.Sound) (id : ι) (value : α)
    (hnone : ∀ id n, t id ≠ some (value, n)) :
    Table.Sound (Function.update t id (some (value, 1))) := by
  have hcases : ∀ other v k, Function.update t id (some (value, 1)) other = some (v, k) →
      (other = id ∧ v = value ∧ k = 1) ∨ (t other = some (v, k)) := by
    intro other v k hother
    by_cases hsame : other = id
    · rw [hsame, Function.update_self] at hother
      have hpair := Prod.mk.inj (Option.some.inj hother)
      exact Or.inl ⟨hsame, hpair.1.symm, hpair.2.symm⟩
    · rw [Function.update_of_ne hsame] at hother
      exact Or.inr hother
  constructor
  · intro a b v k k' ha hb
    rcases hcases a v k ha with ⟨hsame, hv, _⟩ | holda
    · rcases hcases b v k' hb with ⟨hsame', _⟩ | holdb
      · rw [hsame, hsame']
      · exact absurd (hv ▸ holdb) (hnone b k')
    · rcases hcases b v k' hb with ⟨_, hv, _⟩ | holdb
      · exact absurd (hv ▸ holda) (hnone a k)
      · exact h.unique a b v k k' holda holdb
  · intro other v hother
    rcases hcases other v 0 hother with ⟨_, _, hzero⟩ | hold
    · cases hzero
    · exact h.positive other v hold

theorem Table.Sound.erase (h : t.Sound) (id : ι) : Table.Sound (Function.update t id none) := by
  have hback : ∀ other v k, Function.update t id none other = some (v, k) →
      t other = some (v, k) := by
    intro other v k hother
    by_cases hsame : other = id
    · rw [hsame, Function.update_self] at hother
      cases hother
    · rwa [Function.update_of_ne hsame] at hother
  constructor
  · intro a b v k k' ha hb
    exact h.unique a b v k k' (hback a v k ha) (hback b v k' hb)
  · intro other v hother
    exact h.positive other v (hback other v 0 hother)

theorem Step.sound (h : t.Sound) (hstep : Step t event t') : t'.Sound := by
  cases hstep with
  | known value n id hid => exact h.recount id value n n hid
  | new value id hnone _ => exact h.insert id value hnone
  | share value n id hid => exact h.recount id value n n hid
  | release value n id hid => exact h.recount id value (n+2) n hid
  | last value id _ => exact h.erase id
  | found => exact h
  | absent => exact h

theorem references_update (id : ι) (entry : Option (α × ℕ)) :
    Table.references (Function.update t id entry) =
      Function.update t.references id ((entry.map Prod.snd).getD 0) := by
  funext other
  unfold Table.references
  by_cases hsame : other = id
  · rw [hsame, Function.update_self, Function.update_self]
  · rw [Function.update_of_ne hsame, Function.update_of_ne hsame]

/-- The table counts the references. -/
theorem Step.references (hstep : Step t event t') : t'.references = event.count t.references := by
  cases hstep with
  | known value n id hid =>
    rw [references_update, Event.count, references_eq hid]
    rfl
  | new value id _ hfresh =>
    have hzero : t.references id = 0 := by
      unfold Table.references
      rw [hfresh]
      rfl
    rw [references_update, Event.count, hzero]
    rfl
  | share value n id hid =>
    rw [references_update, Event.count, references_eq hid]
    rfl
  | release value n id hid =>
    rw [references_update, Event.count, references_eq hid]
    rfl
  | last value id hid =>
    rw [references_update, Event.count, references_eq hid]
    rfl
  | found => rfl
  | absent => rfl

/-- A handle keeps its value as long as it is in use. -/
theorem Step.keeps (hstep : Step t event t') (id : ι) (value : α) (n : ℕ)
    (hid : t id = some (value, n)) (hlive : t'.references id ≠ 0) : ∃ m, t' id = some (value, m) := by
  have hupdate : ∀ other v k m, t other = some (v, k) →
      ∃ m', Function.update t other (some (v, m)) id = some (value, m') := by
    intro other v k m hother
    by_cases hsame : id = other
    · rw [← hsame] at hother ⊢
      have hpair := Prod.mk.inj (Option.some.inj (hother.symm.trans hid))
      rw [Function.update_self, hpair.1]
      exact ⟨m, rfl⟩
    · rw [Function.update_of_ne hsame]
      exact ⟨n, hid⟩
  cases hstep with
  | known v k other hother => exact hupdate other v k _ hother
  | new v other _ hfresh =>
    have hne : id ≠ other := by
      intro hsame
      rw [hsame, hfresh] at hid
      cases hid
    rw [Function.update_of_ne hne]
    exact ⟨n, hid⟩
  | share v k other hother => exact hupdate other v k _ hother
  | release v k other hother => exact hupdate other v _ _ hother
  | last v other _ =>
    have hne : id ≠ other := by
      intro hsame
      apply hlive
      rw [references_update, hsame, Function.update_self]
      rfl
    rw [Function.update_of_ne hne]
    exact ⟨n, hid⟩
  | found => exact ⟨n, hid⟩
  | absent => exact ⟨n, hid⟩

/-- A value in use is acquired under its handle. -/
theorem Step.acquire_known (h : t.Sound) {value : α} {answer : ι}
    (hstep : Step t (.acquire value answer) t') (id : ι) (n : ℕ) (hid : t id = some (value, n)) :
    answer = id := by
  cases hstep with
  | known _ m _ hanswer => exact h.unique answer id value m n hanswer hid
  | new _ _ hnone _ => exact absurd hid (hnone id n)

/-- Exactly the values in use are found, under their handles. -/
theorem Step.find_iff (h : t.Sound) {value : α} {answer : Option ι}
    (hstep : Step t (.find value answer) t') (id : ι) :
    answer = some id ↔ ∃ n, t id = some (value, n) := by
  cases hstep with
  | found _ n found hfound =>
    constructor
    · intro hsame
      rw [← Option.some.inj hsame]
      exact ⟨n, hfound⟩
    · intro hid
      obtain ⟨m, hid⟩ := hid
      rw [h.unique found id value n m hfound hid]
  | absent _ hnone =>
    constructor
    · intro hsame
      cases hsame
    · intro hid
      obtain ⟨n, hid⟩ := hid
      exact absurd hid (hnone id n)

end Interning

import LibAtrinik.SharedStrings
import LibAtrinik.DoublyLinked
import LibAtrinik.Interning

namespace LibAtrinik.SharedStrings

open DoublyLinked Interning

section Refcount

theorem and_not_topBit (r : UInt64) : (r &&& ~~~topBit).toNat = r.toNat % 2^63 := by
  have hmask : (~~~topBit).toNat = 2^63-1 := by decide
  rw [UInt64.toNat_and, hmask, Nat.and_two_pow_sub_one_eq_mod]

theorem and_topBit (r : UInt64) : r &&& topBit = 0 ↔ r.toNat < 2^63 := by
  have hmask : topBit.toNat = 2^63 := by decide
  have hlt := r.toNat_lt
  rw [← UInt64.toNat_inj, UInt64.toNat_and, hmask, Nat.and_two_pow,
    Nat.testBit_eq_decide_div_mod_eq]
  by_cases hbit : r.toNat/2^63%2 = 1
  · rw [decide_eq_true hbit]
    have hle : ¬r.toNat < 2^63 := by omega
    exact iff_of_false (by decide) hle
  · rw [decide_eq_false hbit]
    have hle : r.toNat < 2^63 := by omega
    exact iff_of_true (by decide) hle

theorem or_topBit (r : UInt64) (h : r.toNat < 2^63) : (r ||| topBit).toNat = r.toNat+2^63 := by
  have hmask : topBit.toNat = 2^63*1 := by decide
  rw [UInt64.toNat_or, hmask, Nat.or_comm, ← Nat.two_pow_add_eq_or_of_lt h 1]
  omega

theorem toNat_add_one (r : UInt64) (h : r.toNat%2^63+1 < 2^63) : (r+1).toNat = r.toNat+1 := by
  have hlt := r.toNat_lt
  have hone : (1 : UInt64).toNat = 1 := rfl
  rw [UInt64.toNat_add, hone]
  omega

theorem toNat_sub_one (r : UInt64) (h : 0 < r.toNat%2^63) : (r-1).toNat = r.toNat-1 := by
  have hone : (1 : UInt64).toNat = 1 := rfl
  have hle : (1 : UInt64) ≤ r := by
    rw [UInt64.le_iff_toNat_le, hone]
    omega
  rw [UInt64.toNat_sub_of_le _ _ hle, hone]

end Refcount

section Chains

/-- The number of references that is stored in an entry. -/
def SharedString.references (ss : SharedString) : ℕ := (ss.refcount &&& ~~~topBit).toNat

/-- The top bit and the union say what is in front of the entry: the slot or another entry. -/
def SharedString.Tagged (ss : SharedString) (slot : Slot) : Option Addr → Prop
  | none => ss.u = .array slot ∧ ss.refcount &&& topBit ≠ 0
  | some previous => ss.u = .previous (some previous) ∧ ss.refcount &&& topBit = 0

/-- An entry of the chain of a slot, with its links. -/
def State.node (st : State) (slot : Slot) (id : Addr) (previous next : Option Addr) : Prop :=
  ∃ ss, st.memory id = some ss ∧ ss.next = next ∧ ss.Tagged slot previous

/-- Each chain has the entries whose strings have the hash of its slot. -/
def Filed (t : Table CString Addr) (chains : Slot → List Addr) : Prop :=
  ∀ slot id, id ∈ chains slot ↔ ∃ contents n, t id = some (contents, n) ∧ hashstr contents = slot

/-- The memory has these chains, and what is interned in them is the table. -/
structure Represents (st : State) (chains : Slot → List Addr) (t : Table CString Addr) : Prop where
  chain : ∀ slot, Chain (st.node slot) (st.hashTable slot) (chains slot)
  entry : ∀ id, t id = (st.memory id).map fun ss => (ss.string, ss.references)
  filed : Filed t chains

variable {st st' : State} {chains : Slot → List Addr} {t : Table CString Addr}

theorem Represents.nodup (h : Represents st chains t) (slot : Slot) : (chains slot).Nodup := by
  apply (h.chain slot).nodup fun id => (st.memory id).map SharedString.next
  intro id previous next hnode
  obtain ⟨ss, hid, hnext, _⟩ := hnode
  rw [hid, ← hnext]
  rfl

/-- No chain is longer than the memory. -/
theorem Represents.length_le (h : Represents st chains t) (slot : Slot) :
    (chains slot).length ≤ addresses := by
  have hcard := (h.nodup slot).length_le_card
  rwa [Fintype.card_fin] at hcard

theorem Represents.live (h : Represents st chains t) {id : Addr} {contents : CString} {n : ℕ}
    (hid : t id = some (contents, n)) :
    ∃ ss, st.memory id = some ss ∧ ss.string = contents ∧ ss.references = n := by
  rw [h.entry] at hid
  obtain ⟨ss, hss, hpair⟩ := Option.map_eq_some_iff.mp hid
  have hparts := Prod.mk.inj hpair
  exact ⟨ss, hss, hparts.1, hparts.2⟩

theorem Represents.interned (h : Represents st chains t) {id : Addr} {ss : SharedString}
    (hid : st.memory id = some ss) : t id = some (ss.string, ss.references) := by
  rw [h.entry, hid]
  rfl

/-- An entry is in the chain of its hash. -/
theorem Represents.mem (h : Represents st chains t) {id : Addr} {ss : SharedString}
    (hid : st.memory id = some ss) : id ∈ chains (hashstr ss.string) :=
  (h.filed _ id).mpr ⟨ss.string, ss.references, h.interned hid, rfl⟩

/-- What is in a chain is an entry with the hash of the slot. -/
theorem Represents.load (h : Represents st chains t) {slot : Slot} {id : Addr}
    (hid : id ∈ chains slot) : ∃ ss, st.memory id = some ss ∧ hashstr ss.string = slot := by
  obtain ⟨contents, n, hentry, hslot⟩ := (h.filed slot id).mp hid
  obtain ⟨ss, hss, hstring, _⟩ := h.live hentry
  exact ⟨ss, hss, hstring ▸ hslot⟩

/-- The chains of different slots have no entry in common. -/
theorem Represents.apart (h : Represents st chains t) {slot slot' : Slot} {id : Addr}
    (hid : id ∈ chains slot) (hid' : id ∈ chains slot') : slot = slot' := by
  obtain ⟨ss, hss, hslot⟩ := h.load hid
  obtain ⟨ss', hss', hslot'⟩ := h.load hid'
  rw [hss] at hss'
  rw [← hslot, ← hslot', Option.some.inj hss']

theorem represents_init : Represents State.init (fun _ => []) (fun _ => none) := by
  refine ⟨fun slot => ⟨none, rfl, rfl⟩, fun id => rfl, ?_⟩
  intro slot id
  constructor
  · intro hid
    exact absurd hid List.not_mem_nil
  · intro hid
    obtain ⟨_, _, hentry, _⟩ := hid
    cases hentry

/-- An entry that stays what it is keeps its place in a chain. -/
theorem node_same {slot : Slot} {id : Addr} (hsame : st'.memory id = st.memory id)
    (previous next : Option Addr) (h : st.node slot id previous next) :
    st'.node slot id previous next := by
  obtain ⟨ss, hid, hrest⟩ := h
  exact ⟨ss, hsame.trans hid, hrest⟩

end Chains

section Filed

variable {chains : Slot → List Addr} {t : Table CString Addr}

theorem Filed.recount (h : Filed t chains) (id : Addr) (contents : CString) (n m : ℕ)
    (hid : t id = some (contents, n)) :
    Filed (Function.update t id (some (contents, m))) chains := by
  intro slot other
  rw [h slot other]
  by_cases hsame : other = id
  · rw [hsame, Function.update_self, hid]
    constructor
    · intro hentry
      obtain ⟨s, _, hpair, hslot⟩ := hentry
      have hs := (Prod.mk.inj (Option.some.inj hpair)).1
      exact ⟨contents, m, rfl, hs ▸ hslot⟩
    · intro hentry
      obtain ⟨s, _, hpair, hslot⟩ := hentry
      have hs := (Prod.mk.inj (Option.some.inj hpair)).1
      exact ⟨contents, n, rfl, hs ▸ hslot⟩
  · rw [Function.update_of_ne hsame]

theorem Filed.insert (h : Filed t chains) (id : Addr) (contents : CString) (n : ℕ)
    (hfresh : t id = none) :
    Filed (Function.update t id (some (contents, n)))
      (Function.update chains (hashstr contents) (chains (hashstr contents) ++ [id])) := by
  intro slot other
  by_cases hsame : other = id
  · rw [hsame, Function.update_self]
    have hnot : ∀ slot, id ∉ chains slot := by
      intro slot hin
      obtain ⟨_, _, hentry, _⟩ := (h slot id).mp hin
      rw [hfresh] at hentry
      cases hentry
    by_cases hslot : slot = hashstr contents
    · rw [hslot, Function.update_self]
      exact iff_of_true (List.mem_append_right _ List.mem_cons_self) ⟨contents, n, rfl, rfl⟩
    · rw [Function.update_of_ne hslot]
      apply iff_of_false (hnot slot)
      intro hentry
      obtain ⟨s, _, hpair, hs⟩ := hentry
      have hcontents := (Prod.mk.inj (Option.some.inj hpair)).1
      exact hslot (by rw [hcontents, hs])
  · rw [Function.update_of_ne hsame, ← h slot other]
    by_cases hslot : slot = hashstr contents
    · rw [hslot, Function.update_self, List.mem_append, List.mem_singleton]
      exact or_iff_left hsame
    · rw [Function.update_of_ne hslot]

theorem Filed.erase (h : Filed t chains) (hnodup : ∀ slot, (chains slot).Nodup) (id : Addr)
    (slot : Slot) (hid : id ∈ chains slot) :
    Filed (Function.update t id none) (Function.update chains slot ((chains slot).erase id)) := by
  intro slot' other
  by_cases hsame : other = id
  · rw [hsame, Function.update_self]
    have hnone : ¬∃ contents n, (none : Option (CString × ℕ)) = some (contents, n) ∧
        hashstr contents = slot' := by
      intro hentry
      obtain ⟨_, _, hentry, _⟩ := hentry
      cases hentry
    apply iff_of_false _ hnone
    by_cases hslot : slot' = slot
    · rw [hslot, Function.update_self]
      exact (hnodup slot).not_mem_erase
    · rw [Function.update_of_ne hslot]
      intro hin
      obtain ⟨s, n, hentry, hs⟩ := (h slot' id).mp hin
      obtain ⟨s', n', hentry', hs'⟩ := (h slot id).mp hid
      rw [hentry] at hentry'
      have hcontents := (Prod.mk.inj (Option.some.inj hentry')).1
      exact hslot (by rw [← hs, ← hs', hcontents])
  · rw [Function.update_of_ne hsame, ← h slot' other]
    by_cases hslot : slot' = slot
    · rw [hslot, Function.update_self]
      exact List.mem_erase_of_ne hsame
    · rw [Function.update_of_ne hslot]

end Filed

end LibAtrinik.SharedStrings

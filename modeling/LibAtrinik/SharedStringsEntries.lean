import LibAtrinik.SharedStringsChains

namespace LibAtrinik.SharedStrings

open DoublyLinked Interning

variable {st st' : State} {chains : Slot → List Addr} {t : Table CString Addr}

/-- The reference count of an entry changes below its top bit. -/
theorem Represents.recount (h : Represents st chains t) (id : Addr) (ss : SharedString)
    (hid : st.memory id = some ss) (r : UInt64) (htag : r &&& topBit = 0 ↔ ss.refcount &&& topBit = 0) :
    Represents (st.set id { ss with refcount := r }) chains
      (Function.update t id (some (ss.string, (r &&& ~~~topBit).toNat))) := by
  refine ⟨?_, ?_, h.filed.recount id ss.string _ _ (h.interned hid)⟩
  · intro slot
    apply (h.chain slot).congr
    intro other _ previous next hnode
    by_cases hsame : other = id
    · obtain ⟨old, hold, hnext, htagged⟩ := hnode
      rw [hsame, hid] at hold
      rw [← Option.some.inj hold] at hnext htagged
      have hself : (st.set id { ss with refcount := r }).memory other =
          some { ss with refcount := r } := by
        rw [hsame]
        exact Function.update_self _ _ _
      refine ⟨_, hself, hnext, ?_⟩
      cases previous with
      | none => exact ⟨htagged.1, fun hzero => htagged.2 (htag.mp hzero)⟩
      | some previous => exact ⟨htagged.1, htag.mpr htagged.2⟩
    · exact node_same (Function.update_of_ne hsame _ _) previous next hnode
  · intro other
    by_cases hsame : other = id
    · rw [hsame, Function.update_self]
      change _ = Option.map _ (Function.update st.memory id _ id)
      rw [Function.update_self]
      rfl
    · rw [Function.update_of_ne hsame, h.entry]
      change _ = Option.map _ (Function.update st.memory id _ other)
      rw [Function.update_of_ne hsame]

/-- An entry in a chain is not the one that has just been allocated. -/
theorem Represents.ne_fresh (h : Represents st chains t) {malloc id : Addr} {slot : Slot}
    (hfresh : st.memory malloc = none) (hid : id ∈ chains slot) : id ≠ malloc := by
  intro hmalloc
  obtain ⟨old, hold, _⟩ := h.load hid
  rw [hmalloc, hfresh] at hold
  cases hold

/-- A new entry comes to the end of its chain. -/
theorem Represents.insert (h : Represents st chains t) (malloc : Addr) (contents : CString)
    (hfresh : st.memory malloc = none) (ss : SharedString) (hnew : st'.memory malloc = some ss)
    (hstring : ss.string = contents) (hone : ss.references = 1)
    (hchain : Chain (st'.node (hashstr contents)) (st'.hashTable (hashstr contents))
      (chains (hashstr contents) ++ [malloc]))
    (htable : ∀ slot, slot ≠ hashstr contents → st'.hashTable slot = st.hashTable slot)
    (hsame : ∀ id, id ∉ chains (hashstr contents) → id ≠ malloc → st'.memory id = st.memory id)
    (hkept : ∀ id ∈ chains (hashstr contents), ∀ old, st.memory id = some old →
      ∃ new, st'.memory id = some new ∧ new.string = old.string ∧
        new.references = old.references) :
    Represents st' (Function.update chains (hashstr contents) (chains (hashstr contents) ++ [malloc]))
      (Function.update t malloc (some (contents, 1))) := by
  have hnone : t malloc = none := by
    rw [h.entry, hfresh]
    rfl
  refine ⟨?_, ?_, h.filed.insert malloc contents 1 hnone⟩
  · intro slot
    by_cases hslot : slot = hashstr contents
    · rw [hslot, Function.update_self]
      exact hchain
    · rw [Function.update_of_ne hslot, htable slot hslot]
      apply (h.chain slot).congr
      intro id hid previous next hnode
      have hout : id ∉ chains (hashstr contents) := fun hin => hslot (h.apart hid hin)
      have hne := h.ne_fresh hfresh hid
      have hmemory := hsame id hout hne
      obtain ⟨old, hold, hrest⟩ := hnode
      exact ⟨old, hmemory.trans hold, hrest⟩
  · intro id
    by_cases hmalloc : id = malloc
    · rw [hmalloc, Function.update_self, hnew]
      change _ = some (ss.string, ss.references)
      rw [hstring, hone]
    · rw [Function.update_of_ne hmalloc, h.entry]
      by_cases hin : id ∈ chains (hashstr contents)
      · obtain ⟨old, hold, _⟩ := h.load hin
        obtain ⟨new, hmemory, hs, hn⟩ := hkept id hin old hold
        rw [hold, hmemory]
        change some (old.string, old.references) = some (new.string, new.references)
        rw [hs, hn]
      · rw [hsame id hin hmalloc]

/-- An entry goes out of its chain. -/
theorem Represents.erase (h : Represents st chains t) (id : Addr) (slot : Slot)
    (hid : id ∈ chains slot) (hgone : st'.memory id = none)
    (hchain : Chain (st'.node slot) (st'.hashTable slot) ((chains slot).erase id))
    (htable : ∀ other, other ≠ slot → st'.hashTable other = st.hashTable other)
    (hsame : ∀ other, other ∉ chains slot → st'.memory other = st.memory other)
    (hkept : ∀ other ∈ chains slot, other ≠ id → ∀ old, st.memory other = some old →
      ∃ new, st'.memory other = some new ∧ new.string = old.string ∧
        new.references = old.references) :
    Represents st' (Function.update chains slot ((chains slot).erase id))
      (Function.update t id none) := by
  refine ⟨?_, ?_, h.filed.erase h.nodup id slot hid⟩
  · intro other
    by_cases hslot : other = slot
    · rw [hslot, Function.update_self]
      exact hchain
    · rw [Function.update_of_ne hslot, htable other hslot]
      apply (h.chain other).congr
      intro a ha previous next hnode
      have hmemory := hsame a fun hin => hslot (h.apart ha hin)
      obtain ⟨old, hold, hrest⟩ := hnode
      exact ⟨old, hmemory.trans hold, hrest⟩
  · intro other
    by_cases heq : other = id
    · rw [heq, Function.update_self, hgone]
      rfl
    · rw [Function.update_of_ne heq, h.entry]
      by_cases hin : other ∈ chains slot
      · obtain ⟨old, hold, _⟩ := h.load hin
        obtain ⟨new, hmemory, hs, hn⟩ := hkept other hin heq old hold
        rw [hold, hmemory]
        change some (old.string, old.references) = some (new.string, new.references)
        rw [hs, hn]
      · rw [hsame other hin]

section Writes

theorem State.modify_ok (st : State) (id : Addr) (f : SharedString → SharedString)
    (ss : SharedString) (h : st.memory id = some ss) : st.modify id f = .ok (st.set id (f ss)) := by
  unfold State.modify State.load
  rw [h]
  rfl

theorem State.load_ok (st : State) (id : Addr) (ss : SharedString) (h : st.memory id = some ss) :
    st.load id = .ok ss := by
  unfold State.load
  rw [h]

@[simp] theorem State.set_self (st : State) (id : Addr) (ss : SharedString) :
    (st.set id ss).memory id = some ss := Function.update_self _ _ _

theorem State.set_other (st : State) (id other : Addr) (ss : SharedString) (h : other ≠ id) :
    (st.set id ss).memory other = st.memory other := Function.update_of_ne h _ _

@[simp] theorem State.set_hashTable (st : State) (id : Addr) (ss : SharedString) :
    (st.set id ss).hashTable = st.hashTable := rfl

@[simp] theorem State.setSlot_memory (st : State) (slot : Slot) (target : Option Addr) :
    (st.setSlot slot target).memory = st.memory := rfl

@[simp] theorem State.setSlot_self (st : State) (slot : Slot) (target : Option Addr) :
    (st.setSlot slot target).hashTable slot = target := Function.update_self _ _ _

theorem State.setSlot_other (st : State) (slot other : Slot) (target : Option Addr)
    (h : other ≠ slot) : (st.setSlot slot target).hashTable other = st.hashTable other :=
  Function.update_of_ne h _ _

@[simp] theorem State.free_self (st : State) (id : Addr) : (st.free id).memory id = none :=
  Function.update_self _ _ _

theorem State.free_other (st : State) (id other : Addr) (h : other ≠ id) :
    (st.free id).memory other = st.memory other := Function.update_of_ne h _ _

@[simp] theorem State.free_hashTable (st : State) (id : Addr) :
    (st.free id).hashTable = st.hashTable := rfl

end Writes

section Sharing

/-- One more reference keeps the top bit. -/
theorem add_one_tag (r : UInt64) (h : (r &&& ~~~topBit).toNat+1 < 2^63) :
    ((r+1) &&& topBit = 0 ↔ r &&& topBit = 0) ∧
      ((r+1) &&& ~~~topBit).toNat = (r &&& ~~~topBit).toNat+1 := by
  rw [and_not_topBit] at h
  have hadd := toNat_add_one r h
  rw [and_topBit, and_topBit, and_not_topBit, and_not_topBit, hadd]
  omega

/-- One reference less keeps the top bit. -/
theorem sub_one_tag (r : UInt64) (h : 0 < (r &&& ~~~topBit).toNat) :
    ((r-1) &&& topBit = 0 ↔ r &&& topBit = 0) ∧
      ((r-1) &&& ~~~topBit).toNat = (r &&& ~~~topBit).toNat-1 := by
  rw [and_not_topBit] at h
  have hsub := toNat_sub_one r h
  rw [and_topBit, and_topBit, and_not_topBit, and_not_topBit, hsub]
  omega

theorem shareEntry_ok (id : Addr) (ss : SharedString) (hid : st.memory id = some ss) :
    shareEntry st id = .ok (id, st.set id { ss with refcount := ss.refcount+1 }) := by
  unfold shareEntry
  rw [State.modify_ok st id _ ss hid]
  rfl

theorem shareEntry_spec (h : Represents st chains t) (id : Addr) (ss : SharedString)
    (hid : st.memory id = some ss) (hbound : ss.references+1 < 2^63) :
    Represents (st.set id { ss with refcount := ss.refcount+1 }) chains
      (Function.update t id (some (ss.string, ss.references+1))) := by
  obtain ⟨htag, hcount⟩ := add_one_tag ss.refcount hbound
  have hrep := h.recount id ss hid (ss.refcount+1) htag
  rw [hcount] at hrep
  exact hrep

/-- The reference counts of a new entry, at the head of a chain and elsewhere. -/
theorem new_tag :
    ((1 : UInt64) ||| topBit) &&& topBit ≠ 0 ∧ (((1 : UInt64) ||| topBit) &&& ~~~topBit).toNat = 1 ∧
      (1 : UInt64) &&& topBit = 0 ∧ ((1 : UInt64) &&& ~~~topBit).toNat = 1 := by decide

/-- A new entry in an empty slot. -/
theorem insertHead_spec (h : Represents st chains t) (malloc : Addr) (contents : CString)
    (hfresh : st.memory malloc = none) (hslot : st.hashTable (hashstr contents) = none) :
    ∃ st' chains', insertHead malloc st contents (hashstr contents) = .ok (malloc, st') ∧
      Represents st' chains' (Function.update t malloc (some (contents, 1))) := by
  let slot := hashstr contents
  let blank : SharedString :=
    { u := .previous none, next := none, refcount := 1, string := contents }
  let head : SharedString := { blank with refcount := blank.refcount ||| topBit, u := .array slot }
  let st₁ := (st.set malloc blank).setSlot slot (some malloc)
  let st₂ := st₁.set malloc { blank with refcount := blank.refcount ||| topBit }
  let st₃ := st₂.set malloc head
  have hempty : chains slot = [] := by
    obtain ⟨last, hseg⟩ := h.chain slot
    have hpointer : st.hashTable slot = none := hslot
    rw [hpointer] at hseg
    cases hchain : chains slot with
    | nil => rfl
    | cons a l =>
      rw [hchain] at hseg
      exact absurd hseg.1.symm (Option.some_ne_none a)
  refine ⟨st₃, _, ?_, h.insert malloc contents hfresh head (State.set_self _ _ _) rfl ?_ ?_ ?_ ?_ ?_⟩
  · unfold insertHead newSharedString
    change (st₁.modify malloc _ >>= fun st => st.modify malloc _ >>= fun st => pure (malloc, st)) = _
    rw [State.modify_ok st₁ malloc _ blank (State.set_self _ _ _)]
    change (st₂.modify malloc _ >>= fun st => pure (malloc, st)) = _
    rw [State.modify_ok st₂ malloc _ _ (State.set_self _ _ _)]
    rfl
  · exact new_tag.2.1
  · change Chain _ (st₁.hashTable slot) (chains slot ++ [malloc])
    rw [hempty, State.setSlot_self]
    exact ⟨some malloc, rfl, none, ⟨head, State.set_self _ _ _, rfl, rfl, new_tag.1⟩, rfl, rfl⟩
  · intro other hother
    exact State.setSlot_other _ _ _ _ hother
  · intro id _ hne
    change ((st₁.set malloc _).set malloc head).memory id = _
    rw [State.set_other _ _ _ _ hne, State.set_other _ _ _ _ hne]
    exact State.set_other _ _ _ _ hne
  · intro id hid
    change id ∈ chains slot at hid
    rw [hempty] at hid
    exact absurd hid List.not_mem_nil

/-- A new entry behind the last one of a chain. -/
theorem appendEntry_spec (h : Represents st chains t) (malloc : Addr) (contents : CString)
    (hfresh : st.memory malloc = none) (before : List Addr) (last : Addr)
    (hchain : chains (hashstr contents) = before ++ [last]) :
    ∃ st' chains', appendEntry malloc st contents last = .ok (malloc, st') ∧
      Represents st' chains' (Function.update t malloc (some (contents, 1))) := by
  let blank : SharedString :=
    { u := .previous none, next := none, refcount := 1, string := contents }
  have hmem : last ∈ chains (hashstr contents) := by
    rw [hchain]
    exact List.mem_append_right _ List.mem_cons_self
  obtain ⟨old, hold, _⟩ := h.load hmem
  have hne := h.ne_fresh hfresh hmem
  let st₁ := st.set malloc blank
  let st₂ := st₁.set last { old with next := some malloc }
  let entry : SharedString := { blank with u := .previous (some last) }
  let st₃ := st₂.set malloc entry
  have hlast₁ : st₁.memory last = some old := (State.set_other _ _ _ _ hne).trans hold
  have hblank₂ : st₂.memory malloc = some blank :=
    (State.set_other _ _ _ _ hne.symm).trans (State.set_self _ _ _)
  have hlast₃ : st₃.memory last = some { old with next := some malloc } :=
    (State.set_other _ _ _ _ hne).trans (State.set_self _ _ _)
  have hsame₃ : ∀ id, id ≠ malloc → id ≠ last → st₃.memory id = st.memory id := by
    intro id hmalloc hlast
    change ((st₁.set last _).set malloc entry).memory id = _
    rw [State.set_other _ _ _ _ hmalloc, State.set_other _ _ _ _ hlast]
    exact State.set_other _ _ _ _ hmalloc
  have hnodup := h.nodup (hashstr contents)
  rw [hchain] at hnodup
  refine ⟨st₃, _, ?_, h.insert malloc contents hfresh entry (State.set_self _ _ _) rfl ?_ ?_ ?_ ?_ ?_⟩
  · unfold appendEntry newSharedString
    change (st₁.modify last _ >>= fun st => st.modify malloc _ >>= fun st => pure (malloc, st)) = _
    rw [State.modify_ok st₁ last _ old hlast₁]
    change (st₂.modify malloc _ >>= fun st => pure (malloc, st)) = _
    rw [State.modify_ok st₂ malloc _ blank hblank₂]
    rfl
  · exact new_tag.2.2.2
  · obtain ⟨end', hseg⟩ := h.chain (hashstr contents)
    rw [hchain] at hseg ⊢
    have hend := hseg.last_eq last
    -- the last entry now points to the new one
    have hfront : Seg (st₃.node (hashstr contents)) none (st.hashTable (hashstr contents))
        (before ++ [last]) end' (some malloc) := by
      apply hseg.retarget last (some malloc)
      · intro m hnode
        obtain ⟨ss, hss, _, htagged⟩ := hnode
        rw [hold] at hss
        rw [← Option.some.inj hss] at htagged
        refine ⟨_, hlast₃, rfl, ?_⟩
        cases m <;> exact htagged
      · intro id hid m r hnode
        have hid' : id ∈ chains (hashstr contents) := by
          rw [hchain]
          exact List.mem_append_left _ hid
        have hmalloc := h.ne_fresh hfresh hid'
        have hlast : id ≠ last := by
          intro hsame
          rw [List.nodup_append] at hnodup
          exact hnodup.2.2 id hid last List.mem_cons_self hsame
        exact node_same (hsame₃ id hmalloc hlast) m r hnode
    refine ⟨some malloc, seg_append.mpr ⟨end', some malloc, hfront, rfl, none, ?_, rfl, rfl⟩⟩
    rw [hend]
    exact ⟨entry, State.set_self _ _ _, rfl, rfl, new_tag.2.2.1⟩
  · intro other _
    rfl
  · intro id hout hmalloc
    apply hsame₃ id hmalloc
    intro hsame
    exact hout (hsame ▸ hmem)
  · intro id hid ss hss
    by_cases hlast : id = last
    · rw [hlast, hold] at hss
      rw [hlast, ← Option.some.inj hss]
      exact ⟨_, hlast₃, rfl, rfl⟩
    · have hmalloc := h.ne_fresh hfresh hid
      exact ⟨ss, (hsame₃ id hmalloc hlast).trans hss, rfl, rfl⟩

end Sharing

section Unlinking

/-- Only these entries are written to, and each entry keeps its string and its count. -/
structure Rewritten (changed : List Addr) (st st' : State) : Prop where
  other : ∀ id, id ∉ changed → st'.memory id = st.memory id
  kept : ∀ id old, st.memory id = some old →
    ∃ new, st'.memory id = some new ∧ new.string = old.string ∧ new.references = old.references

variable {changed changed' : List Addr} {slot : Slot} {id : Addr} {ss : SharedString}
  {before after : List Addr} {p previous last : Option Addr}

theorem Rewritten.of_same (changed : List Addr) (h : st'.memory = st.memory) :
    Rewritten changed st st' := by
  refine ⟨fun id _ => congrFun h id, fun id old hold => ⟨old, ?_, rfl, rfl⟩⟩
  rw [h]
  exact hold

theorem Rewritten.setSlot (changed : List Addr) (slot : Slot) (target : Option Addr) :
    Rewritten changed st (st.setSlot slot target) := .of_same changed (State.setSlot_memory _ _ _)

theorem Rewritten.set (id : Addr) (old new : SharedString) (hold : st.memory id = some old)
    (hstring : new.string = old.string) (hreferences : new.references = old.references) :
    Rewritten [id] st (st.set id new) := by
  constructor
  · intro other hother
    exact State.set_other _ _ _ _ fun hsame => hother (List.mem_singleton.mpr hsame)
  · intro other ss hss
    by_cases hsame : other = id
    · rw [hsame, hold] at hss
      rw [hsame, ← Option.some.inj hss]
      exact ⟨new, State.set_self _ _ _, hstring, hreferences⟩
    · exact ⟨ss, (State.set_other _ _ _ _ hsame).trans hss, rfl, rfl⟩

theorem Rewritten.trans {st'' : State} (h : Rewritten changed st st')
    (h' : Rewritten changed st' st'') : Rewritten changed st st'' := by
  refine ⟨fun id hid => (h'.other id hid).trans (h.other id hid), fun id old hold => ?_⟩
  obtain ⟨new, hnew, hs, hn⟩ := h.kept id old hold
  obtain ⟨newer, hnewer, hs', hn'⟩ := h'.kept id new hnew
  exact ⟨newer, hnewer, hs'.trans hs, hn'.trans hn⟩

theorem Rewritten.mono (h : Rewritten changed st st') (hsub : ∀ a ∈ changed, a ∈ changed') :
    Rewritten changed' st st' :=
  ⟨fun id hid => h.other id fun hin => hid (hsub id hin), h.kept⟩

/-- The other entries of a chain keep their links. -/
theorem Rewritten.node (h : Rewritten changed st st') (hid : id ∉ changed) (m r : Option Addr)
    (hnode : st.node slot id m r) : st'.node slot id m r := node_same (h.other id hid) m r hnode

/-- An entry is freed once the others of its chain are linked without it. -/
theorem Represents.free (h : Represents st chains t) (hid : id ∈ chains slot)
    (hw : Rewritten ((chains slot).erase id) st st')
    (htable : ∀ other, other ≠ slot → st'.hashTable other = st.hashTable other)
    (hchain : Chain (st'.node slot) (st'.hashTable slot) ((chains slot).erase id)) :
    Represents (st'.free id) (Function.update chains slot ((chains slot).erase id))
      (Function.update t id none) := by
  refine h.erase id slot hid (State.free_self _ _) ?_ htable ?_ ?_
  · apply hchain.congr
    intro a ha m r hnode
    have hne : a ≠ id := ((h.nodup slot).mem_erase_iff.mp ha).1
    exact node_same (State.free_other _ _ _ hne) m r hnode
  · intro other hother
    have hne : other ≠ id := fun hsame => hother (hsame ▸ hid)
    exact (State.free_other _ _ _ hne).trans
      (hw.other other fun hin => hother (List.mem_of_mem_erase hin))
  · intro other _ hne old hold
    rw [State.free_other _ _ _ hne]
    exact hw.kept other old hold

/-- Where an entry stands in its chain. -/
structure Located (st : State) (chain : List Addr) (slot : Slot) (id : Addr) (ss : SharedString)
    (before after : List Addr) (previous last : Option Addr) : Prop where
  split : chain = before ++ id :: after
  nodup : (before ++ id :: after).Nodup
  front : Seg (st.node slot) none (st.hashTable slot) before previous (some id)
  tagged : ss.Tagged slot previous
  back : Seg (st.node slot) (some id) ss.next after last none

theorem Represents.located (h : Represents st chains t) (hid : st.memory id = some ss) :
    ∃ before after previous last, Located st (chains (hashstr ss.string)) (hashstr ss.string) id ss
      before after previous last := by
  obtain ⟨before, after, hsplit⟩ := List.append_of_mem (h.mem hid)
  have hnodup := h.nodup (hashstr ss.string)
  obtain ⟨last, hseg⟩ := h.chain (hashstr ss.string)
  rw [hsplit] at hseg hnodup
  obtain ⟨m, r, hfront, ⟨ss', hss', hnext, htagged⟩, hback⟩ := hseg.split id
  rw [hid] at hss'
  rw [← Option.some.inj hss'] at hnext htagged
  rw [← hnext] at hback
  exact ⟨before, after, m, last, hsplit, hnodup, hfront, htagged, hback⟩

theorem Located.erase {chain : List Addr}
    (h : Located st chain slot id ss before after previous last) :
    chain.erase id = before ++ after := by
  have hapart := (List.nodup_append.mp h.nodup).2.2
  have hnot : id ∉ before := fun hin => hapart id hin id List.mem_cons_self rfl
  rw [h.split, List.erase_append_right _ hnot, List.erase_cons_head]

/-- The entries after the head of a chain become the chain. -/
theorem unlinkHead_chain (hu : ss.u = .array slot) (hnodup : after.Nodup)
    (hback : Seg (st.node slot) (some id) ss.next after last none) :
    ∃ st', unlinkHead st ss = .ok st' ∧ Rewritten after st st' ∧
      (∀ other, other ≠ slot → st'.hashTable other = st.hashTable other) ∧
      Chain (st'.node slot) (st'.hashTable slot) after := by
  have harray : ss.array = .ok slot := by
    unfold SharedString.array
    rw [hu]
  have htable (target : Option Addr) (other : Slot) (hother : other ≠ slot) :
      (st.setSlot slot target).hashTable other = st.hashTable other :=
    State.setSlot_other _ _ _ _ hother
  unfold unlinkHead
  rw [harray]
  cases after with
  | nil =>
    -- the chain is empty now
    have hnone : ss.next = none := hback.2
    rw [hnone]
    exact ⟨st.setSlot slot none, rfl, .setSlot [] slot none, htable none, none, rfl,
      State.setSlot_self _ _ _⟩
  | cons c after =>
    -- the next entry is the head now
    obtain ⟨hc, r, ⟨css, hcss, hcnext, hctagged⟩, hrest⟩ := hback
    rw [hc]
    let st₁ := st.setSlot slot (some c)
    let head : SharedString :=
      { css with u := .array slot, refcount := css.refcount ||| topBit }
    have hlow := (and_topBit css.refcount).mp hctagged.2
    have hword := or_topBit css.refcount hlow
    have hreferences : head.references = css.references := by
      change ((css.refcount ||| topBit) &&& ~~~topBit).toNat = (css.refcount &&& ~~~topBit).toNat
      rw [and_not_topBit, and_not_topBit, hword]
      omega
    have hfirst : Rewritten [c] st₁ (st₁.set c { css with u := .array slot }) :=
      .set c css _ hcss rfl rfl
    have hsecond := Rewritten.set c _ head (State.set_self st₁ c { css with u := .array slot }) rfl
      hreferences
    have hw := ((Rewritten.setSlot [c] slot (some c)).trans hfirst).trans hsecond
    refine ⟨_, ?_, hw.mono fun a ha => List.mem_singleton.mp ha ▸ List.mem_cons_self,
      htable (some c), ?_⟩
    · change (st₁.modify c _ >>= fun st => st.modify c _) = _
      rw [State.modify_ok st₁ c _ css hcss]
      exact State.modify_ok _ c _ _ (State.set_self _ _ _)
    · refine ⟨last, State.setSlot_self _ _ _, r, ⟨head, State.set_self _ _ _, hcnext, rfl, ?_⟩,
        hrest.congr ?_⟩
      · intro hzero
        have hzero := (and_topBit _).mp hzero
        rw [hword] at hzero
        omega
      · intro other hother
        apply hw.node
        intro hsame
        exact (List.nodup_cons.mp hnodup).1 (List.mem_singleton.mp hsame ▸ hother)

/-- The entries after one that goes are linked back to the entry before it. -/
theorem relinkNext_chain (b : Addr) {next : Option Addr} (hnodup : after.Nodup)
    (hback : Seg (st.node slot) (some id) next after last none) :
    ∃ st' last', relinkNext st next (some b) = .ok st' ∧ Rewritten after st st' ∧
      st'.hashTable = st.hashTable ∧ Seg (st'.node slot) (some b) next after last' none := by
  cases after with
  | nil =>
    have hnone : next = none := hback.2
    rw [hnone]
    exact ⟨st, some b, rfl, .of_same [] rfl, rfl, rfl, rfl⟩
  | cons c after =>
    obtain ⟨hc, r, ⟨css, hcss, hcnext, hctagged⟩, hrest⟩ := hback
    rw [hc]
    have hw : Rewritten [c] st (st.set c { css with u := .previous (some b) }) :=
      .set c css _ hcss rfl rfl
    refine ⟨_, last, State.modify_ok st c _ css hcss,
      hw.mono fun a ha => List.mem_singleton.mp ha ▸ List.mem_cons_self, rfl, rfl, r,
      ⟨_, State.set_self _ _ _, hcnext, rfl, hctagged.2⟩, hrest.congr ?_⟩
    intro other hother
    apply hw.node
    intro hsame
    exact (List.nodup_cons.mp hnodup).1 (List.mem_singleton.mp hsame ▸ hother)

/-- The entries around one that is not the head are linked to each other. -/
theorem unlinkEntry_chain (b : Addr) (hu : ss.u = .previous (some b))
    (hnodup : (before ++ [b] ++ after).Nodup)
    (hfront : Seg (st.node slot) none p (before ++ [b]) (some b) (some id))
    (hback : Seg (st.node slot) (some id) ss.next after last none) :
    ∃ st', unlinkEntry st ss = .ok st' ∧ Rewritten (before ++ [b] ++ after) st st' ∧
      st'.hashTable = st.hashTable ∧ Chain (st'.node slot) p (before ++ [b] ++ after) := by
  have hprevious : ss.previous = .ok (some b) := by
    unfold SharedString.previous
    rw [hu]
  obtain ⟨hnodupFront, hnodupAfter, hapart⟩ := List.nodup_append.mp hnodup
  have hfrontNot : ∀ a ∈ before ++ [b], a ∉ after := fun a ha hin => hapart a ha a hin rfl
  have hb : b ∈ before ++ [b] := List.mem_append_right _ List.mem_cons_self
  have hbeforeNe : ∀ a ∈ before, a ≠ b := fun a ha =>
    (List.nodup_append.mp hnodupFront).2.2 a ha b List.mem_cons_self
  obtain ⟨_, _, _, _, _, ⟨bss, hbss, _, _⟩, _⟩ := seg_append.mp hfront
  obtain ⟨st₂, last', hrun, hw₂, htable, hback₂⟩ := relinkNext_chain b hnodupAfter hback
  have hbss₂ : st₂.memory b = some bss := (hw₂.other b (hfrontNot b hb)).trans hbss
  have hw₃ : Rewritten [b] st₂ (st₂.set b { bss with next := ss.next }) :=
    .set b bss _ hbss₂ rfl rfl
  refine ⟨st₂.set b { bss with next := ss.next }, ?_, ?_, htable, last', ?_⟩
  · unfold unlinkEntry
    rw [hprevious]
    change (relinkNext st ss.next (some b) >>= fun st => st.modify b _) = _
    rw [hrun]
    exact State.modify_ok st₂ b _ bss hbss₂
  · apply (hw₂.mono fun a ha => List.mem_append_right _ ha).trans
    apply hw₃.mono
    intro a ha
    exact List.mem_append_left _ (List.mem_singleton.mp ha ▸ hb)
  · refine seg_append.mpr ⟨some b, ss.next, ?_, hback₂.congr fun a ha => ?_⟩
    · -- the entry before it gets its link
      apply hfront.retarget b ss.next
      · intro m hnode
        obtain ⟨old, hold, _, htag⟩ := hnode
        rw [hbss] at hold
        rw [← Option.some.inj hold] at htag
        refine ⟨_, State.set_self _ _ _, rfl, ?_⟩
        cases m <;> exact htag
      · intro a ha m r hnode
        have hafter := hfrontNot a (List.mem_append_left _ ha)
        have hne : a ∉ [b] := fun hin => hbeforeNe a ha (List.mem_singleton.mp hin)
        exact hw₃.node hne m r (hw₂.node hafter m r hnode)
    · apply hw₃.node
      intro hin
      exact hfrontNot b hb (List.mem_singleton.mp hin ▸ ha)

/-- The head of a chain is taken out. -/
theorem unlinkHead_spec (h : Represents st chains t) (id : Addr) (ss : SharedString)
    (hid : st.memory id = some ss) (hhead : ss.refcount &&& topBit ≠ 0) :
    ∃ st' chains', unlinkHead st ss = .ok st' ∧
      Represents (st'.free id) chains' (Function.update t id none) := by
  obtain ⟨before, after, previous, last, hl⟩ := h.located hid
  cases previous with
  | some previous => exact absurd hl.tagged.2 hhead
  | none =>
    have herase := hl.erase
    rw [hl.front.eq_nil, List.nil_append] at herase
    have hnodup : after.Nodup := herase ▸ (h.nodup _).erase id
    obtain ⟨st', hrun, hw, htable, hchain⟩ := unlinkHead_chain hl.tagged.1 hnodup hl.back
    rw [← herase] at hw hchain
    exact ⟨st', _, hrun, h.free (h.mem hid) hw htable hchain⟩

/-- Another entry is taken out. -/
theorem unlinkEntry_spec (h : Represents st chains t) (id : Addr) (ss : SharedString)
    (hid : st.memory id = some ss) (hlater : ss.refcount &&& topBit = 0) :
    ∃ st' chains', unlinkEntry st ss = .ok st' ∧
      Represents (st'.free id) chains' (Function.update t id none) := by
  obtain ⟨before, after, previous, last, hl⟩ := h.located hid
  cases previous with
  | none => exact absurd hlater hl.tagged.2
  | some b =>
    have hfront := hl.front
    have hnonempty : before ≠ [] := by
      intro hnil
      rw [hnil] at hfront
      exact absurd hfront.1.symm (Option.some_ne_none b)
    obtain ⟨rest, b', hbefore, hb'⟩ := hfront.last_mem hnonempty
    rw [← Option.some.inj hb'] at hbefore
    have herase := hl.erase
    rw [hbefore] at hfront herase
    have hnodup : (rest ++ [b] ++ after).Nodup := herase ▸ (h.nodup _).erase id
    obtain ⟨st', hrun, hw, htable, hchain⟩ :=
      unlinkEntry_chain b hl.tagged.1 hnodup hfront hl.back
    rw [← herase, ← htable] at hchain
    rw [← herase] at hw
    exact ⟨st', _, hrun, h.free (h.mem hid) hw (fun other _ => congrFun htable other) hchain⟩

end Unlinking

end LibAtrinik.SharedStrings

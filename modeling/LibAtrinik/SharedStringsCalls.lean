import LibAtrinik.SharedStringsEntries

namespace LibAtrinik.SharedStrings

open DoublyLinked Interning

variable {st st' : State} {chains : Slot → List Addr} {t : Table CString Addr}

section Walks

variable {str : Str} {contents : CString}

theorem strcmpEq_spec (hstr : st.contents str = .ok contents) (id : Addr) (ss : SharedString)
    (hid : st.memory id = some ss) :
    strcmpEq st id str = .ok (decide (ss.string = contents)) := by
  unfold strcmpEq
  rw [State.load_ok st id ss hid, hstr]
  rfl

/-- A string that is the string of the entry itself has the same contents. -/
theorem sameString_spec (hstr : st.contents str = .ok contents) (id : Addr) (ss : SharedString)
    (hid : st.memory id = some ss) :
    sameString st id str = .ok (decide (ss.string = contents)) := by
  unfold sameString
  split_ifs with hself
  · rw [hself] at hstr
    change (st.load id >>= fun ss => pure ss.string) = _ at hstr
    rw [State.load_ok st id ss hid] at hstr
    rw [decide_eq_true (Except.ok.inj hstr)]
  · exact strcmpEq_spec hstr id ss hid

/-- The loop finds the entry of the string or ends at the last one. -/
theorem chainLoop_spec (test : Addr → Except Fault Bool)
    (htest : ∀ id ss, st.memory id = some ss → test id = .ok (decide (ss.string = contents)))
    (slot : Slot) (rest : List Addr) (fuel : ℕ) (hfuel : rest.length ≤ fuel) (id : Addr)
    (ss : SharedString) (last : Option Addr) (hid : st.memory id = some ss)
    (hrest : Seg (st.node slot) (some id) ss.next rest last none) :
    ∃ answer found, chainLoop st test fuel id = .ok (answer, found) ∧
      ((found = true ∧ answer ∈ rest ∧
          ∃ ss, st.memory answer = some ss ∧ ss.string = contents) ∨
        (found = false ∧ last = some answer ∧
          ∀ other ∈ rest, ∀ ss, st.memory other = some ss → ss.string ≠ contents)) := by
  induction rest generalizing fuel id ss with
  | nil =>
    refine ⟨id, false, ?_, Or.inr ⟨rfl, hrest.1.symm, ?_⟩⟩
    · unfold chainLoop
      rw [State.load_ok st id ss hid]
      dsimp only [bind, Except.bind]
      rw [hrest.2]
      rfl
    · intro other hother
      exact absurd hother List.not_mem_nil
  | cons a rest ih =>
    obtain ⟨ha, r, ⟨ass, hass, hanext, _⟩, hlater⟩ := hrest
    rw [← hanext] at hlater
    cases fuel with
    | zero => exact absurd hfuel (Nat.not_succ_le_zero _)
    | succ fuel =>
      have hloop : chainLoop st test (fuel+1) id =
          (if ass.string = contents then .ok (a, true) else chainLoop st test fuel a) := by
        rw [chainLoop, State.load_ok st id ss hid]
        dsimp only [bind, Except.bind]
        rw [ha]
        change (test a >>= fun same => _) = _
        rw [htest a ass hass]
        change (if decide (ass.string = contents) = true then _ else _) = _
        by_cases hsame : ass.string = contents
        · rw [decide_eq_true hsame, if_pos hsame]
          rfl
        · rw [decide_eq_false hsame, if_neg hsame]
          rfl
      rw [hloop]
      by_cases hsame : ass.string = contents
      · rw [if_pos hsame]
        exact ⟨a, true, rfl, Or.inl ⟨rfl, List.mem_cons_self, ass, hass, hsame⟩⟩
      · rw [if_neg hsame]
        obtain ⟨answer, found, hwalk, hresult⟩ := ih fuel (Nat.le_of_succ_le_succ hfuel) a ass hass
          hlater
        refine ⟨answer, found, hwalk, ?_⟩
        rcases hresult with ⟨hfound, hin, hstring⟩ | ⟨hfound, hlast, hnone⟩
        · exact Or.inl ⟨hfound, List.mem_cons_of_mem a hin, hstring⟩
        · refine Or.inr ⟨hfound, hlast, ?_⟩
          intro other hother oss hoss
          rcases List.mem_cons.mp hother with hfirst | hin
          · rw [hfirst, hass] at hoss
            rw [← Option.some.inj hoss]
            exact hsame
          · exact hnone other hin oss hoss

end Walks

section Calls

variable {str : Str} {contents : CString}

/-- What a slot of the hash table says about the strings with its hash: there are none, or there is
a head with the other ones behind it. -/
theorem Represents.slot_cases (h : Represents st chains t) (contents : CString) :
    (st.hashTable (hashstr contents) = none ∧ ∀ id n, t id ≠ some (contents, n)) ∨
      ∃ head rest, chains (hashstr contents) = head :: rest ∧
        st.hashTable (hashstr contents) = some head ∧
        ∃ ss last, st.memory head = some ss ∧
          Seg (st.node (hashstr contents)) (some head) ss.next rest last none ∧
          rest.length ≤ addresses ∧
          (∃ before a, head :: rest = before ++ [a] ∧ last = some a) := by
  obtain ⟨last, hseg⟩ := h.chain (hashstr contents)
  have hlength := h.length_le (hashstr contents)
  cases hchain : chains (hashstr contents) with
  | nil =>
    rw [hchain] at hseg
    refine Or.inl ⟨hseg.2, ?_⟩
    intro id n hid
    have hin := (h.filed (hashstr contents) id).mpr ⟨contents, n, hid, rfl⟩
    rw [hchain] at hin
    exact absurd hin List.not_mem_nil
  | cons head rest =>
    rw [hchain] at hseg hlength
    have hend := hseg.last_mem (List.cons_ne_nil head rest)
    obtain ⟨hhead, next, ⟨ss, hss, hnext, _⟩, hrest⟩ := hseg
    rw [← hnext] at hrest
    exact Or.inr ⟨head, rest, rfl, hhead, ss, last, hss, hrest, Nat.le_of_succ_le hlength, hend⟩

/-- A string that no entry of its chain has is not interned. -/
theorem Represents.absent (h : Represents st chains t) {head : Addr} {rest : List Addr}
    (hchain : chains (hashstr contents) = head :: rest)
    (hhead : ∀ ss, st.memory head = some ss → ss.string ≠ contents)
    (hrest : ∀ other ∈ rest, ∀ ss, st.memory other = some ss → ss.string ≠ contents) (id : Addr)
    (n : ℕ) : t id ≠ some (contents, n) := by
  intro hid
  obtain ⟨ss, hss, hstring, _⟩ := h.live hid
  have hin := (h.filed (hashstr contents) id).mpr ⟨contents, n, hid, rfl⟩
  rw [hchain] at hin
  rcases List.mem_cons.mp hin with hfirst | hlater
  · exact hhead ss (hfirst ▸ hss) hstring
  · exact hrest id hlater ss hss hstring

/-- A string that is interned gets one more reference, as far as they can be counted; any other
string gets a new handle. -/
theorem addString_spec (h : Represents st chains t) (malloc : Addr)
    (hfresh : st.memory malloc = none) (hstr : st.contents str = .ok contents) :
    ∃ id st', addString malloc st str = .ok (id, st') ∧
      ((∀ n, t id = some (contents, n) → n+1 < 2^63) →
        ∃ chains' t', Step t (.acquire contents id) t' ∧ Represents st' chains' t') := by
  have hknown : ∀ id ss, st.memory id = some ss → ss.string = contents →
      ∃ st', shareEntry st id = .ok (id, st') ∧
        ((∀ n, t id = some (contents, n) → n+1 < 2^63) →
          ∃ chains' t', Step t (.acquire contents id) t' ∧ Represents st' chains' t') := by
    intro id ss hss hstring
    refine ⟨_, shareEntry_ok id ss hss, ?_⟩
    intro hbound
    have hentry := h.interned hss
    have hrep := shareEntry_spec h id ss hss (hbound _ (hstring ▸ hentry))
    rw [← hstring]
    exact ⟨chains, _, .known ss.string _ id hentry, hrep⟩
  have hnone : t malloc = none := by
    rw [h.entry, hfresh]
    rfl
  have hempty : st.hashTable (hashstr contents) = none →
      addString malloc st str = insertHead malloc st contents (hashstr contents) := by
    intro hslot
    unfold addString
    rw [hstr]
    dsimp only [bind, Except.bind]
    rw [hslot]
  have hfull : ∀ head, st.hashTable (hashstr contents) = some head →
      addString malloc st str = (sameString st head str >>= fun same =>
        if same then shareEntry st head
        else chainLoop st (fun id => sameString st id str) addresses head >>= fun result =>
          if result.2 then shareEntry st result.1
          else appendEntry malloc st contents result.1) := by
    intro head hslot
    unfold addString
    rw [hstr]
    dsimp only [bind, Except.bind]
    rw [hslot]
  rcases h.slot_cases contents with ⟨hslot, habsent⟩ |
    ⟨head, rest, hchain, hslot, hss, last, hheadss, hrest, hlength, before, a, hsplit, hlast⟩
  · rw [hempty hslot]
    obtain ⟨st', chains', hinsert, hrep⟩ := insertHead_spec h malloc contents hfresh hslot
    exact ⟨malloc, st', hinsert, fun _ =>
      ⟨chains', _, .new contents malloc habsent hnone, hrep⟩⟩
  · rw [hfull head hslot]
    rw [sameString_spec hstr head hss hheadss]
    by_cases hsame : hss.string = contents
    · rw [decide_eq_true hsame]
      exact ⟨head, hknown head hss hheadss hsame⟩
    rw [decide_eq_false hsame]
    obtain ⟨answer, found, hwalk, hresult⟩ := chainLoop_spec _ (sameString_spec hstr) _ rest addresses
      hlength head hss last hheadss hrest
    change ∃ id st', (chainLoop st (fun id => sameString st id str) addresses head >>=
      fun result => _) = _ ∧ _
    rw [hwalk]
    rcases hresult with ⟨hfound, _, ss, hss', hstring⟩ | ⟨hfound, hanswer, hother⟩
    · rw [hfound]
      exact ⟨answer, hknown answer ss hss' hstring⟩
    · rw [hfound]
      have hend : answer = a := Option.some.inj (hanswer.symm.trans hlast)
      have habsent : ∀ id n, t id ≠ some (contents, n) := by
        intro id n
        apply h.absent hchain _ hother
        intro ss hss'
        rw [hheadss] at hss'
        rw [← Option.some.inj hss']
        exact hsame
      obtain ⟨st', chains', happend, hrep⟩ := appendEntry_spec h malloc contents hfresh before a
        (hchain.trans hsplit)
      rw [hend]
      exact ⟨malloc, st', happend, fun _ =>
        ⟨chains', _, .new contents malloc habsent hnone, hrep⟩⟩

theorem findString_spec (h : Represents st chains t) (hstr : st.contents str = .ok contents) :
    ∃ answer, findString st str = .ok answer ∧ Step t (.find contents answer) t := by
  have hfound : ∀ id ss, st.memory id = some ss → ss.string = contents →
      Step t (.find contents (some id)) t := by
    intro id ss hss hstring
    have hentry := h.interned hss
    rw [hstring] at hentry
    exact .found contents _ id hentry
  have hempty : st.hashTable (hashstr contents) = none → findString st str = .ok none := by
    intro hslot
    unfold findString
    rw [hstr]
    dsimp only [bind, Except.bind]
    rw [hslot]
    rfl
  have hfull : ∀ head, st.hashTable (hashstr contents) = some head →
      findString st str = (strcmpEq st head str >>= fun same =>
        if same then .ok (some head)
        else chainLoop st (fun id => strcmpEq st id str) addresses head >>= fun result =>
          .ok (if result.2 then some result.1 else none)) := by
    intro head hslot
    unfold findString
    rw [hstr]
    dsimp only [bind, Except.bind]
    rw [hslot]
    rfl
  rcases h.slot_cases contents with ⟨hslot, habsent⟩ |
    ⟨head, rest, hchain, hslot, hss, last, hheadss, hrest, hlength, _⟩
  · rw [hempty hslot]
    exact ⟨none, rfl, .absent contents habsent⟩
  · rw [hfull head hslot]
    rw [strcmpEq_spec hstr head hss hheadss]
    by_cases hsame : hss.string = contents
    · rw [decide_eq_true hsame]
      exact ⟨some head, rfl, hfound head hss hheadss hsame⟩
    rw [decide_eq_false hsame]
    obtain ⟨answer, found, hwalk, hresult⟩ := chainLoop_spec _ (strcmpEq_spec hstr) _ rest addresses
      hlength head hss last hheadss hrest
    change ∃ answer, (chainLoop st (fun id => strcmpEq st id str) addresses head >>=
      fun result => _) = _ ∧ _
    rw [hwalk]
    rcases hresult with ⟨hflag, _, ss, hss', hstring⟩ | ⟨hflag, _, hother⟩
    · rw [hflag]
      exact ⟨some answer, rfl, hfound answer ss hss' hstring⟩
    · rw [hflag]
      refine ⟨none, rfl, .absent contents fun id n => h.absent hchain ?_ hother id n⟩
      intro ss hss'
      rw [hheadss] at hss'
      rw [← Option.some.inj hss']
      exact hsame

/-- A reference is given back; the last one takes the entry with it. -/
theorem freeStringShared_spec (h : Represents st chains t) (id : Addr) (n : ℕ)
    (hid : t id = some (contents, n+1)) :
    ∃ st' chains' t', freeStringShared st id = .ok st' ∧ Step t (.release id) t' ∧
      Represents st' chains' t' := by
  obtain ⟨ss, hss, hstring, hn⟩ := h.live hid
  have hpositive : 0 < (ss.refcount &&& ~~~topBit).toNat := by
    change 0 < ss.references
    omega
  obtain ⟨htag, hcount⟩ := sub_one_tag ss.refcount hpositive
  let less : SharedString := { ss with refcount := ss.refcount-1 }
  let st₁ := st.set id less
  have hless : st₁.memory id = some less := State.set_self _ _ _
  have hrep := h.recount id ss hss (ss.refcount-1) htag
  have hreferences : ((ss.refcount-1) &&& ~~~topBit).toNat = n := by
    rw [hcount]
    change ss.references-1 = n
    omega
  have hstart : freeStringShared st id =
      (if (ss.refcount-1) &&& ~~~topBit = 0 then
        (if (ss.refcount-1) &&& topBit ≠ 0 then unlinkHead st₁ less
          else unlinkEntry st₁ less) >>= fun st => .ok (st.free id)
      else .ok st₁) := by
    unfold freeStringShared
    rw [State.modify_ok st id _ ss hss]
    change (st₁.load id >>= fun ss => _) = _
    rw [State.load_ok st₁ id less hless]
    change (if (ss.refcount-1) &&& ~~~topBit = 0 then _ else _) = _
    split_ifs <;> rfl
  rw [hstart]
  cases n with
  | succ n =>
    have hmore : ¬(ss.refcount-1) &&& ~~~topBit = 0 := by
      intro hzero
      rw [hzero] at hreferences
      cases hreferences
    rw [if_neg hmore]
    rw [hreferences] at hrep
    rw [← hstring] at hid
    exact ⟨st₁, chains, _, rfl, .release ss.string n id hid, hrep⟩
  | zero =>
    have hzero : (ss.refcount-1) &&& ~~~topBit = 0 := UInt64.toNat_inj.mp hreferences
    rw [if_pos hzero]
    have hunlink : ∃ st' chains', (if (ss.refcount-1) &&& topBit ≠ 0 then unlinkHead st₁ less
        else unlinkEntry st₁ less) = .ok st' ∧
          Represents (st'.free id) chains' (Function.update t id none) := by
      by_cases hhead : (ss.refcount-1) &&& topBit ≠ 0
      · obtain ⟨st', chains', hresult, hrep'⟩ := unlinkHead_spec hrep id less hless hhead
        rw [Function.update_idem] at hrep'
        rw [if_pos hhead]
        exact ⟨st', chains', hresult, hrep'⟩
      · have hlater := not_not.mp hhead
        obtain ⟨st', chains', hresult, hrep'⟩ := unlinkEntry_spec hrep id less hless hlater
        rw [Function.update_idem] at hrep'
        rw [if_neg hhead]
        exact ⟨st', chains', hresult, hrep'⟩
    obtain ⟨st', chains', hresult, hrep'⟩ := hunlink
    rw [hresult]
    exact ⟨st'.free id, chains', _, rfl, .last contents id hid, hrep'⟩

end Calls

end LibAtrinik.SharedStrings

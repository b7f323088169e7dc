import LibAtrinik.SortLinkedList

namespace LibAtrinik.SortLinkedList

open IntrusiveList

variable {π : Type}

/-- The links lead from the beginning of the tape over these records; what comes after them is
stale. -/
structure Holds (next : Links π) (t : Tape π) (l : List π) : Prop where
  count : t.count = l.length
  chain : ∃ q, Seg id next t.first l q

/-- The tape knows its last record. -/
def Ends (t : Tape π) (l : List π) : Prop := ∀ a, l.getLast? = some a → t.last = a

/-- The four tapes hold these lists, and no record twice. -/
structure Held (next : Links π) (tape : Fin 4 → Tape π) (lists : Fin 4 → List π) : Prop where
  holds : ∀ i, Holds next (tape i) (lists i)
  nodup : ∀ i, (lists i).Nodup
  apart : ∀ i j, i ≠ j → ∀ a ∈ lists i, a ∉ lists j

variable {next next' : Links π} {tape tape' : Fin 4 → Tape π} {lists : Fin 4 → List π}
  {chosen output : Fin 4}

theorem Holds.congr {t : Tape π} {l : List π} (h : Holds next t l)
    (hsame : ∀ a ∈ l, next' a = next a) : Holds next' t l := by
  obtain ⟨hcount, q, hchain⟩ := h
  exact ⟨hcount, q, hchain.congr hsame⟩

variable [DecidableEq π]

theorem setLink_eq (record target r : π) (h : next record = some r) :
    setLink next record target = some (Function.update next record (some target)) := by
  unfold setLink
  rw [h]

/-- The first record of the chosen list is now the last one of the output list. -/
structure Moved (lists lists' : Fin 4 → List π) (chosen output : Fin 4) (a : π) (l : List π) :
    Prop where
  was : lists chosen = a :: l
  taken : lists' chosen = l
  put : lists' output = lists output ++ [a]
  other : ∀ i, i ≠ chosen → i ≠ output → lists' i = lists i

omit [DecidableEq π] in
theorem moved_update (hne : chosen ≠ output) (a : π) (l : List π) (hchosen : lists chosen = a :: l) :
    Moved lists (Function.update (Function.update lists chosen l) output (lists output ++ [a]))
      chosen output a l where
  was := hchosen
  taken := by rw [Function.update_of_ne hne, Function.update_self]
  put := Function.update_self _ _ _
  other i hi hi' := by rw [Function.update_of_ne hi', Function.update_of_ne hi]

section Moved

variable {lists' : Fin 4 → List π} {a : π} {l : List π}

omit [DecidableEq π] in
theorem Moved.mem_chosen (m : Moved lists lists' chosen output a l) : a ∈ lists chosen := by
  rw [m.was]
  exact List.mem_cons_self

omit [DecidableEq π] in
/-- Where a record of the new lists comes from. -/
theorem Moved.back (m : Moved lists lists' chosen output a l) (h : Held next tape lists) (i : Fin 4)
    (b : π) (hb : b ∈ lists' i) :
    (i ≠ output → b ∈ lists i ∧ b ≠ a) ∧ (i = output → b ∈ lists output ∨ b = a) := by
  by_cases hi' : i = output
  · refine ⟨fun hno => absurd hi' hno, fun _ => ?_⟩
    rw [hi', m.put] at hb
    rcases List.mem_append.mp hb with hold | hnew
    · exact Or.inl hold
    · exact Or.inr (List.mem_singleton.mp hnew)
  · refine ⟨fun _ => ?_, fun hyes => absurd hyes hi'⟩
    by_cases hi : i = chosen
    · rw [hi, m.taken] at hb
      have hnodup := h.nodup chosen
      rw [m.was, List.nodup_cons] at hnodup
      rw [hi, m.was]
      exact ⟨List.mem_cons_of_mem a hb, fun hba => hnodup.1 (hba ▸ hb)⟩
    · rw [m.other i hi hi'] at hb
      exact ⟨hb, fun hba => h.apart i chosen hi b hb (hba ▸ m.mem_chosen)⟩

omit [DecidableEq π] in
theorem Moved.nodup (m : Moved lists lists' chosen output a l) (h : Held next tape lists)
    (hne : chosen ≠ output) (i : Fin 4) : (lists' i).Nodup := by
  by_cases hi : i = chosen
  · have hnodup := h.nodup chosen
    rw [m.was, List.nodup_cons] at hnodup
    rw [hi, m.taken]
    exact hnodup.2
  by_cases hi' : i = output
  · rw [hi', m.put, List.nodup_append]
    refine ⟨h.nodup output, List.nodup_singleton a, ?_⟩
    intro b hb c hc hbc
    rw [List.mem_singleton.mp hc] at hbc
    exact h.apart chosen output hne a m.mem_chosen (hbc ▸ hb)
  · rw [m.other i hi hi']
    exact h.nodup i

omit [DecidableEq π] in
theorem Moved.apart (m : Moved lists lists' chosen output a l) (h : Held next tape lists)
    (i j : Fin 4) (hij : i ≠ j) (b : π) (hbi : b ∈ lists' i) : b ∉ lists' j := by
  intro hbj
  by_cases hi : i = output
  · have hj : j ≠ output := fun hj => hij (hi.trans hj.symm)
    obtain ⟨hold, hba⟩ := (m.back h j b hbj).1 hj
    rcases (m.back h i b hbi).2 hi with hout | hnew
    · exact h.apart output j hj.symm b hout hold
    · exact hba hnew
  · obtain ⟨hold, hba⟩ := (m.back h i b hbi).1 hi
    by_cases hj : j = output
    · rcases (m.back h j b hbj).2 hj with hout | hnew
      · exact h.apart i output hi b hold hout
      · exact hba hnew
    · exact h.apart i j hij b hold ((m.back h j b hbj).1 hj).1

omit [DecidableEq π] in
/-- Only the two tapes that are written have to be looked at. -/
theorem Moved.held (m : Moved lists lists' chosen output a l) (h : Held next tape lists)
    (hne : chosen ≠ output) (htaken : Holds next' (tape' chosen) l)
    (hput : Holds next' (tape' output) (lists output ++ [a]))
    (hother : ∀ i, i ≠ chosen → i ≠ output → tape' i = tape i)
    (hsame : ∀ b, b ∉ lists output → next' b = next b) : Held next' tape' lists' := by
  refine ⟨fun i => ?_, m.nodup h hne, m.apart h⟩
  by_cases hi : i = chosen
  · rw [hi, m.taken]
    exact htaken
  by_cases hi' : i = output
  · rw [hi', m.put]
    exact hput
  · rw [hother i hi hi', m.other i hi hi']
    exact (h.holds i).congr fun b hb => hsame b (h.apart i output hi' b hb)

end Moved

section Record

variable {t : Tape π} {a following : π} {l : List π}

omit [DecidableEq π] in
theorem Holds.head (h : Holds next t (a :: l)) : t.first = a := by
  obtain ⟨_, _, hfirst, _⟩ := h
  exact hfirst

omit [DecidableEq π] in
/-- The tape behind its first record. -/
theorem Holds.tail (h : Holds next t (a :: l)) : ∃ following, next a = some following ∧
    Holds next { t with first := following, count := t.count-1 } l := by
  obtain ⟨hcount, q, _, following, hlink, hrest⟩ := h
  refine ⟨following, hlink, ?_, q, hrest⟩
  change t.count-1 = l.length
  rw [hcount, List.length_cons, Nat.add_sub_cancel]

omit [DecidableEq π] in
theorem Holds.appendFirst (h : Holds next t []) (hlink : next a = some following) :
    Holds next { first := a, last := a, count := t.count+1 } [a] := by
  refine ⟨?_, following, rfl, following, hlink, rfl⟩
  change t.count+1 = 1
  rw [h.count]
  rfl

omit [DecidableEq π] in
/-- The last record of a tape has a link, which is stale. -/
theorem Holds.exists_last (h : Holds next t l) (hends : Ends t l) (hne : l ≠ []) :
    ∃ front z r, l = front ++ [z] ∧ t.last = z ∧ next z = some r := by
  obtain ⟨front, z, hsplit⟩ := List.eq_nil_or_concat l |>.resolve_left hne
  rw [List.concat_eq_append] at hsplit
  obtain ⟨_, q, hchain⟩ := h
  obtain ⟨r, hr⟩ := hchain.link z (by
    rw [hsplit]
    exact List.mem_append_right _ List.mem_cons_self)
  refine ⟨front, z, r, hsplit, ?_, hr⟩
  apply hends z
  rw [hsplit, List.getLast?_concat]

/-- The link of the last record is set. -/
theorem Holds.close {front : List π} {z : π} (h : Holds next t (front ++ [z])) (hz : z ∉ front)
    (target : π) :
    Seg id (Function.update next z (some target)) t.first (front ++ [z]) target := by
  obtain ⟨_, q, hchain⟩ := h
  apply hchain.retarget z target (Function.update_self _ _ _)
  intro b hb
  apply Function.update_of_ne
  intro hbz
  rw [hbz] at hb
  exact hz hb

/-- The link of the last record leads to the new one. -/
theorem Holds.append {front : List π} {z : π} (h : Holds next t (front ++ [z]))
    (hz : z ∉ front) (haz : a ≠ z) (hlink : next a = some following) :
    Holds (Function.update next z (some a)) { t with last := a, count := t.count+1 }
      (front ++ [z] ++ [a]) := by
  refine ⟨?_, following, ?_⟩
  · change t.count+1 = _
    simp only [h.count, List.length_append, List.length_singleton]
  have hlink' : Function.update next z (some a) a = some following :=
    (Function.update_of_ne haz _ _).trans hlink
  exact seg_append.mpr ⟨a, h.close hz a, rfl, following, hlink', rfl⟩

omit [DecidableEq π] in
/-- The tapes after two of them have been written. -/
theorem written_tapes (tape : Fin 4 → Tape π) (hne : chosen ≠ output) (taken put : Tape π) :
    Function.update (Function.update tape chosen taken) output put chosen = taken ∧
      Function.update (Function.update tape chosen taken) output put output = put ∧
      ∀ i, i ≠ chosen → i ≠ output →
        Function.update (Function.update tape chosen taken) output put i = tape i := by
  refine ⟨?_, Function.update_self _ _ _, fun i hi hi' => ?_⟩
  · rw [Function.update_of_ne hne, Function.update_self]
  · rw [Function.update_of_ne hi', Function.update_of_ne hi]

/-- The output tape is begun, or its last record gets a link. -/
theorem moveRecord_eq (hne : chosen ≠ output) (hfirst : (tape chosen).first = a)
    (hlink : next a = some following) (taken : Tape π)
    (htaken : taken = { tape chosen with first := following, count := (tape chosen).count-1 }) :
    moveRecord chosen output tape next =
      if (tape output).count = 0 then
        some (Function.update (Function.update tape chosen taken) output
          { first := a, last := a, count := (tape output).count+1 }, next)
      else setLink next (tape output).last a >>= fun next =>
        some (Function.update (Function.update tape chosen taken) output
          { tape output with last := a, count := (tape output).count+1 }, next) := by
  unfold moveRecord
  rw [hfirst]
  change (next a >>= fun following => _) = _
  rw [hlink, htaken]
  change (if (Function.update tape chosen _ output).count = 0 then _ else _) = _
  rw [Function.update_of_ne hne.symm]
  rfl

end Record

/-- The first record of the chosen list goes to the end of the output list. -/
theorem moveRecord_spec (h : Held next tape lists) (hne : chosen ≠ output)
    (hends : Ends (tape output) (lists output)) (a : π) (l : List π)
    (hchosen : lists chosen = a :: l) :
    ∃ tape' next' lists', moveRecord chosen output tape next = some (tape', next') ∧
      Held next' tape' lists' ∧ Ends (tape' output) (lists' output) ∧
      Moved lists lists' chosen output a l ∧
      (∀ i, i ≠ chosen → i ≠ output → tape' i = tape i) ∧
      (∀ b, b ∉ lists output → next' b = next b) := by
  have hholds := h.holds chosen
  rw [hchosen] at hholds
  obtain ⟨following, hlink, htaken⟩ := hholds.tail
  have m := moved_update hne a l hchosen
  generalize Function.update (Function.update lists chosen l) output (lists output ++ [a]) = lists'
    at m
  have hanot : a ∉ lists output := h.apart chosen output hne a m.mem_chosen
  rw [moveRecord_eq hne hholds.head hlink _ rfl]
  by_cases hempty : (tape output).count = 0
  · -- the record is the only one of the output tape
    rw [if_pos hempty]
    have hnil : lists output = [] := by
      apply List.eq_nil_of_length_eq_zero
      rw [← (h.holds output).count, hempty]
    have hput : Holds next { first := a, last := a, count := (tape output).count+1 }
        (lists output ++ [a]) := by
      have hout := h.holds output
      rw [hnil] at hout ⊢
      exact hout.appendFirst hlink
    obtain ⟨htapeChosen, htapeOutput, htapeOther⟩ := written_tapes tape hne
      { tape chosen with first := following, count := (tape chosen).count-1 }
      { first := a, last := a, count := (tape output).count+1 }
    refine ⟨_, next, lists', rfl, ?_, ?_, m, htapeOther, fun _ _ => rfl⟩
    · apply m.held h hne ?_ ?_ htapeOther fun _ _ => rfl
      · rw [htapeChosen]
        exact htaken
      · rw [htapeOutput]
        exact hput
    · intro b hb
      rw [m.put, List.getLast?_concat] at hb
      rw [htapeOutput, ← Option.some.inj hb]
  · rw [if_neg hempty]
    have hnonempty : lists output ≠ [] := by
      intro hnil
      apply hempty
      rw [(h.holds output).count, hnil]
      rfl
    obtain ⟨front, z, r, hsplit, hz, hr⟩ := (h.holds output).exists_last hends hnonempty
    have hzin : z ∈ lists output := by
      rw [hsplit]
      exact List.mem_append_right _ List.mem_cons_self
    rw [hz, setLink_eq z a r hr]
    have hsame : ∀ b, b ∉ lists output → Function.update next z (some a) b = next b := by
      intro b hb
      apply Function.update_of_ne
      intro hbz
      exact hb (hbz ▸ hzin)
    have hput : Holds (Function.update next z (some a))
        { tape output with last := a, count := (tape output).count+1 } (lists output ++ [a]) := by
      have hout := h.holds output
      have hnodup := h.nodup output
      rw [hsplit] at hout hnodup ⊢
      rw [List.nodup_append] at hnodup
      apply hout.append ?_ ?_ hlink
      · exact fun hin => hnodup.2.2 z hin z List.mem_cons_self rfl
      · exact fun haz => hanot (haz ▸ hzin)
    obtain ⟨htapeChosen, htapeOutput, htapeOther⟩ := written_tapes tape hne
      { tape chosen with first := following, count := (tape chosen).count-1 }
      { tape output with last := a, count := (tape output).count+1 }
    refine ⟨_, Function.update next z (some a), lists', rfl, ?_, ?_, m, htapeOther, hsame⟩
    · apply m.held h hne ?_ ?_ htapeOther hsame
      · rw [htapeChosen]
        apply htaken.congr
        intro b hb
        apply hsame b (h.apart chosen output hne b ?_)
        rw [hchosen]
        exact List.mem_cons_of_mem a hb
      · rw [htapeOutput]
        exact hput
    · intro b hb
      rw [m.put, List.getLast?_concat] at hb
      rw [htapeOutput, ← Option.some.inj hb]

section Merge

variable (compare : π → π → Option Int) {tape0 tape1 : Fin 4}

/-- The comparison does not want the first record after the second one. -/
def before (a b : π) : Bool :=
  match compare a b with
  | some order => decide (order ≤ 0)
  | none => true

omit [DecidableEq π] in
/-- What is chosen depends on the records that may still be taken from the two lists. -/
theorem choose_eq {t0 t1 : Tape π} {l0 l1 : List π} (h0 : Holds next t0 l0) (h1 : Holds next t1 l1)
    (n0 n1 : ℕ) : choose compare t0 t1 n0 n1 =
      (if l0.take n0 = [] then if l1.take n1 = [] then some none else some (some true)
      else if l1.take n1 = [] then some (some false)
      else (compare t0.first t1.first).map fun order => some (decide (order > 0))) := by
  have hnil : ∀ {t : Tape π} {l : List π} (n : ℕ), Holds next t l →
      ((n = 0 ∨ t.count = 0) ↔ l.take n = []) := by
    intro t l n h
    rw [List.take_eq_nil_iff, h.count, List.length_eq_zero_iff]
  unfold choose
  simp only [hnil n0 h0, hnil n1 h1]

/-- The loop ends with the first `n0` and `n1` records of the two lists merged at the end of the
output list, and nothing else is touched. -/
def MergesTo (tape0 tape1 output : Fin 4) (fuel n0 n1 : ℕ) (tape : Fin 4 → Tape π) (next : Links π)
    (lists : Fin 4 → List π) : Prop :=
  ∃ tape' next' lists', mergeLoop compare tape0 tape1 output fuel n0 n1 tape next =
      some (tape', next') ∧
    Held next' tape' lists' ∧ Ends (tape' output) (lists' output) ∧
    lists' tape0 = (lists tape0).drop n0 ∧ lists' tape1 = (lists tape1).drop n1 ∧
    lists' output = lists output ++
      ((lists tape0).take n0).merge ((lists tape1).take n1) (before compare) ∧
    (∀ i, i ≠ tape0 → i ≠ tape1 → i ≠ output → tape' i = tape i ∧ lists' i = lists i) ∧
    (∀ b, b ∉ lists tape0 → b ∉ lists tape1 → b ∉ lists output → next' b = next b)

/-- One record is moved, and the rest is merged after it. -/
theorem MergesTo.move {fuel n0 n1 : ℕ} (right : Bool) {tape₁ : Fin 4 → Tape π} {next₁ : Links π}
    {lists₁ : Fin 4 → List π} {a : π} {l : List π} (h : Held next tape lists)
    (hchosen : choose compare (tape tape0) (tape tape1) n0 n1 = some (some right))
    (hmove : moveRecord (if right then tape1 else tape0) output tape next = some (tape₁, next₁))
    (m : Moved lists lists₁ (if right then tape1 else tape0) output a l)
    (hother : ∀ i, i ≠ (if right then tape1 else tape0) → i ≠ output → tape₁ i = tape i)
    (hsame : ∀ b, b ∉ lists output → next₁ b = next b)
    (hrest : MergesTo compare tape0 tape1 output fuel (if right then n0 else n0-1)
      (if right then n1-1 else n1) tape₁ next₁ lists₁)
    (hdrop0 : (lists₁ tape0).drop (if right then n0 else n0-1) = (lists tape0).drop n0)
    (hdrop1 : (lists₁ tape1).drop (if right then n1-1 else n1) = (lists tape1).drop n1)
    (hmerge : a :: ((lists₁ tape0).take (if right then n0 else n0-1)).merge
        ((lists₁ tape1).take (if right then n1-1 else n1)) (before compare) =
      ((lists tape0).take n0).merge ((lists tape1).take n1) (before compare)) :
    MergesTo compare tape0 tape1 output (fuel+1) n0 n1 tape next lists := by
  obtain ⟨tape', next', lists', hloop, hheld, hends, hleft, hright, hout, hframe, hlinks⟩ := hrest
  refine ⟨tape', next', lists', ?_, hheld, hends, hleft.trans hdrop0, hright.trans hdrop1, ?_, ?_,
    ?_⟩
  · rw [mergeLoop, hchosen]
    change (moveRecord (if right then tape1 else tape0) output tape next >>= fun result => _) = _
    rw [hmove]
    exact hloop
  · rw [hout, m.put, ← hmerge, List.append_assoc]
    rfl
  · intro i hi0 hi1 hi
    have hi' : i ≠ (if right then tape1 else tape0) := by
      split_ifs
      · exact hi1
      · exact hi0
    obtain ⟨htape, hlists⟩ := hframe i hi0 hi1 hi
    exact ⟨htape.trans (hother i hi' hi), hlists.trans (m.other i hi' hi)⟩
  · intro b hb0 hb1 hb
    have hba : b ≠ a := by
      rintro rfl
      have hmem := m.mem_chosen
      split_ifs at hmem
      · exact hb1 hmem
      · exact hb0 hmem
    -- the record was in one of the three lists before
    have hnot (i : Fin 4) (hold : b ∉ lists i) : b ∉ lists₁ i := by
      intro hin
      obtain ⟨hback, hback'⟩ := m.back h i b hin
      by_cases hi : i = output
      · exact (hback' hi).elim hb hba
      · exact hold (hback hi).1
    rw [hlinks b (hnot _ hb0) (hnot _ hb1) (hnot _ hb), hsame b hb]

/-- A record is taken from the second list. -/
theorem MergesTo.takeSecond {fuel n0 k : ℕ} {y : π} {l1 : List π} (h01 : tape0 ≠ tape1)
    (h0 : tape0 ≠ output) (h1 : tape1 ≠ output) (h : Held next tape lists)
    (hends : Ends (tape output) (lists output)) (hlist : lists tape1 = y :: l1)
    (hmerge : ((lists tape0).take n0).merge (y :: l1.take k) (before compare) =
      y :: ((lists tape0).take n0).merge (l1.take k) (before compare))
    (hchosen : choose compare (tape tape0) (tape tape1) n0 (k+1) = some (some true))
    (hrest : ∀ (tape₁ : Fin 4 → Tape π) (next₁ : Links π) (lists₁ : Fin 4 → List π),
      Held next₁ tape₁ lists₁ → Ends (tape₁ output) (lists₁ output) →
        lists₁ tape0 = lists tape0 → lists₁ tape1 = l1 →
          MergesTo compare tape0 tape1 output fuel n0 k tape₁ next₁ lists₁) :
    MergesTo compare tape0 tape1 output (fuel+1) n0 (k+1) tape next lists := by
  obtain ⟨tape₁, next₁, lists₁, hmove, hheld, hends₁, m, hother, hsame⟩ :=
    moveRecord_spec h h1 hends y l1 hlist
  have hzero := m.other tape0 h01 h0
  refine MergesTo.move compare true h hchosen hmove m hother hsame
    (hrest tape₁ next₁ lists₁ hheld hends₁ hzero m.taken) ?_ ?_ ?_
  · exact congrArg (List.drop n0) hzero
  · show (lists₁ tape1).drop k = _
    rw [m.taken, hlist, List.drop_succ_cons]
  · show y :: ((lists₁ tape0).take n0).merge ((lists₁ tape1).take k) (before compare) = _
    rw [hzero, m.taken, hlist, List.take_succ_cons, hmerge]

/-- A record is taken from the first list. -/
theorem MergesTo.takeFirst {fuel k n1 : ℕ} {x : π} {l0 : List π} (h01 : tape0 ≠ tape1)
    (h0 : tape0 ≠ output) (h1 : tape1 ≠ output) (h : Held next tape lists)
    (hends : Ends (tape output) (lists output)) (hlist : lists tape0 = x :: l0)
    (hmerge : (x :: l0.take k).merge ((lists tape1).take n1) (before compare) =
      x :: (l0.take k).merge ((lists tape1).take n1) (before compare))
    (hchosen : choose compare (tape tape0) (tape tape1) (k+1) n1 = some (some false))
    (hrest : ∀ (tape₁ : Fin 4 → Tape π) (next₁ : Links π) (lists₁ : Fin 4 → List π),
      Held next₁ tape₁ lists₁ → Ends (tape₁ output) (lists₁ output) →
        lists₁ tape0 = l0 → lists₁ tape1 = lists tape1 →
          MergesTo compare tape0 tape1 output fuel k n1 tape₁ next₁ lists₁) :
    MergesTo compare tape0 tape1 output (fuel+1) (k+1) n1 tape next lists := by
  obtain ⟨tape₁, next₁, lists₁, hmove, hheld, hends₁, m, hother, hsame⟩ :=
    moveRecord_spec h h0 hends x l0 hlist
  have hone := m.other tape1 h01.symm h1
  refine MergesTo.move compare false h hchosen hmove m hother hsame
    (hrest tape₁ next₁ lists₁ hheld hends₁ m.taken hone) ?_ ?_ ?_
  · show (lists₁ tape0).drop k = _
    rw [m.taken, hlist, List.drop_succ_cons]
  · exact congrArg (List.drop n1) hone
  · show x :: ((lists₁ tape0).take k).merge ((lists₁ tape1).take n1) (before compare) = _
    rw [hone, m.taken, hlist, List.take_succ_cons, hmerge]

omit [DecidableEq π] in
theorem exists_cons_of_take {l : List π} {n : ℕ} (h : l.take n ≠ []) :
    ∃ a l' k, l = a :: l' ∧ n = k+1 := by
  cases l with
  | nil => exact absurd List.take_nil h
  | cons a l' =>
    cases n with
    | zero => exact absurd List.take_zero h
    | succ k => exact ⟨a, l', k, rfl, rfl⟩

omit [DecidableEq π] in
theorem eq_drop_of_take {l : List π} {n : ℕ} (h : l.take n = []) : l = l.drop n := by
  have happend := List.take_append_drop n l
  rw [h, List.nil_append] at happend
  exact happend.symm

/-- The first `n0` and `n1` records of the two lists are merged. -/
theorem mergeLoop_spec (h01 : tape0 ≠ tape1) (h0 : tape0 ≠ output) (h1 : tape1 ≠ output)
    (fuel n0 n1 : ℕ) (hfuel : n0+n1 ≤ fuel) (h : Held next tape lists)
    (hends : Ends (tape output) (lists output))
    (htotal : ∀ a ∈ lists tape0, ∀ b ∈ lists tape1, ∃ order, compare a b = some order) :
    MergesTo compare tape0 tape1 output fuel n0 n1 tape next lists := by
  induction fuel generalizing n0 n1 tape next lists with
  | zero =>
    have hn0 : n0 = 0 := by omega
    have hn1 : n1 = 0 := by omega
    refine ⟨tape, next, lists, ?_, h, hends, ?_, ?_, ?_, fun _ _ _ _ => ⟨rfl, rfl⟩,
      fun _ _ _ _ => rfl⟩
    · rw [mergeLoop, choose_eq compare (h.holds tape0) (h.holds tape1), hn0, hn1, List.take_zero,
        List.take_zero, if_pos rfl, if_pos rfl]
      rfl
    · rw [hn0, List.drop_zero]
    · rw [hn1, List.drop_zero]
    · rw [hn0, hn1, List.take_zero, List.take_zero, List.nil_merge, List.append_nil]
  | succ fuel ih =>
    have hchoose := choose_eq compare (h.holds tape0) (h.holds tape1) n0 n1
    -- what is left after a record of either list is merged by the induction
    have hfirst {x : π} {l0 : List π} {k : ℕ} (hlist : lists tape0 = x :: l0) (hk : k+n1 ≤ fuel)
        (tape₁ : Fin 4 → Tape π) (next₁ : Links π) (lists₁ : Fin 4 → List π)
        (hheld : Held next₁ tape₁ lists₁) (hends₁ : Ends (tape₁ output) (lists₁ output))
        (hzero : lists₁ tape0 = l0) (hone : lists₁ tape1 = lists tape1) :
        MergesTo compare tape0 tape1 output fuel k n1 tape₁ next₁ lists₁ := by
      refine ih k n1 hk hheld hends₁ ?_
      rw [hzero, hone]
      exact fun a ha b hb => htotal a (hlist ▸ List.mem_cons_of_mem x ha) b hb
    have hsecond {y : π} {l1 : List π} {k : ℕ} (hlist : lists tape1 = y :: l1) (hk : n0+k ≤ fuel)
        (tape₁ : Fin 4 → Tape π) (next₁ : Links π) (lists₁ : Fin 4 → List π)
        (hheld : Held next₁ tape₁ lists₁) (hends₁ : Ends (tape₁ output) (lists₁ output))
        (hzero : lists₁ tape0 = lists tape0) (hone : lists₁ tape1 = l1) :
        MergesTo compare tape0 tape1 output fuel n0 k tape₁ next₁ lists₁ := by
      refine ih n0 k hk hheld hends₁ ?_
      rw [hzero, hone]
      exact fun a ha b hb => htotal a ha b (hlist ▸ List.mem_cons_of_mem y hb)
    by_cases hnil0 : (lists tape0).take n0 = []
    · rw [if_pos hnil0] at hchoose
      by_cases hnil1 : (lists tape1).take n1 = []
      · -- nothing may be taken any more
        rw [if_pos hnil1] at hchoose
        refine ⟨tape, next, lists, ?_, h, hends, eq_drop_of_take hnil0, eq_drop_of_take hnil1, ?_,
          fun _ _ _ _ => ⟨rfl, rfl⟩, fun _ _ _ _ => rfl⟩
        · rw [mergeLoop, hchoose]
          rfl
        · rw [hnil0, hnil1, List.nil_merge, List.append_nil]
      · rw [if_neg hnil1] at hchoose
        obtain ⟨y, l1, k, hlist, rfl⟩ := exists_cons_of_take hnil1
        exact MergesTo.takeSecond compare h01 h0 h1 h hends hlist
          (by rw [hnil0, List.nil_merge, List.nil_merge]) hchoose (hsecond hlist (by omega))
    · rw [if_neg hnil0] at hchoose
      obtain ⟨x, l0, k0, hlist0, rfl⟩ := exists_cons_of_take hnil0
      by_cases hnil1 : (lists tape1).take n1 = []
      · rw [if_pos hnil1] at hchoose
        exact MergesTo.takeFirst compare h01 h0 h1 h hends hlist0
          (by rw [hnil1, List.merge_right, List.merge_right]) hchoose (hfirst hlist0 (by omega))
      · rw [if_neg hnil1] at hchoose
        obtain ⟨y, l1, k1, hlist1, rfl⟩ := exists_cons_of_take hnil1
        have hhead0 := (hlist0 ▸ h.holds tape0 : Holds next (tape tape0) (x :: l0)).head
        have hhead1 := (hlist1 ▸ h.holds tape1 : Holds next (tape tape1) (y :: l1)).head
        obtain ⟨order, horder⟩ := htotal x (by rw [hlist0]; exact List.mem_cons_self) y
          (by rw [hlist1]; exact List.mem_cons_self)
        rw [hhead0, hhead1, horder] at hchoose
        have hbefore : before compare x y = decide (order ≤ 0) := by
          unfold before
          rw [horder]
        by_cases hafter : order > 0
        · refine MergesTo.takeSecond compare h01 h0 h1 h hends hlist1 ?_ ?_
            (hsecond hlist1 (by omega))
          · rw [hlist0, List.take_succ_cons, List.cons_merge_cons, if_neg]
            rw [hbefore, decide_eq_true_iff]
            omega
          · rw [hchoose]
            change some (some (decide (order > 0))) = _
            rw [decide_eq_true hafter]
        · refine MergesTo.takeFirst compare h01 h0 h1 h hends hlist0 ?_ ?_
            (hfirst hlist0 (by omega))
          · rw [hlist1, List.take_succ_cons, List.cons_merge_cons, if_pos]
            rw [hbefore, decide_eq_true_iff]
            omega
          · rw [hchoose]
            change some (some (decide (order > 0))) = _
            rw [decide_eq_false hafter]

end Merge

end LibAtrinik.SortLinkedList

import LibAtrinik.SortLinkedListTapes
import LibAtrinik.SortedBlocks

namespace LibAtrinik.SortLinkedList

open IntrusiveList SortedBlocks

/-- Two tapes with blocks of this size: the first one may be ahead by a block, and only the last
block of all may be short. -/
def Staggered (b c0 c1 : ℕ) : Prop :=
  (∃ k, c0 = k*b ∧ c1 ≤ k*b ∧ k*b ≤ c1+b) ∨ (∃ k, c1 = k*b ∧ k*b ≤ c0 ∧ c0 ≤ k*b+b)

theorem Staggered.zero {b c1 : ℕ} (h : Staggered b 0 c1) : c1 = 0 := by
  rcases h with ⟨k, hk, hle, _⟩ | ⟨k, hk, hle, _⟩
  · omega
  · omega

theorem Staggered.block_le {b c0 c1 : ℕ} (h : Staggered b c0 c1) (hc1 : c1 ≠ 0) : b ≤ c0 := by
  rcases h with ⟨k, hk, hle, _⟩ | ⟨k, hk, hle, _⟩
  · cases k with
    | zero => omega
    | succ k =>
      rw [Nat.succ_mul] at hk
      omega
  · cases k with
    | zero => omega
    | succ k =>
      rw [Nat.succ_mul] at hle
      omega

/-- With an empty second tape there is one block at most. -/
theorem Staggered.single {b c0 : ℕ} (h : Staggered b c0 0) : c0 ≤ b := by
  rcases h with ⟨k, hk, _, hle⟩ | ⟨k, hk, _, hle⟩ <;> omega

/-- The blocks that are merged next are full ones or the last ones. -/
theorem Staggered.step {b c0 c1 : ℕ} (h : Staggered b c0 c1) (hb : 0 < b) :
    (c0-b = 0 ∧ c1-b = 0 ∧ min b c0+min b c1 ≤ 2*b) ∨
    (Staggered b (c0-b) (c1-b) ∧ min b c0+min b c1 = 2*b) := by
  rcases h with ⟨k, hk, hle, hge⟩ | ⟨k, hk, hge, hle⟩
  · cases k with
    | zero => omega
    | succ k =>
      rw [Nat.succ_mul] at hk hle hge
      by_cases hlast : c1 < b
      · have hzero : k*b = 0 := by
          cases k with
          | zero => exact Nat.zero_mul b
          | succ k =>
            rw [Nat.succ_mul] at hge
            omega
        left
        omega
      · right
        refine ⟨Or.inl ⟨k, ?_, ?_, ?_⟩, ?_⟩ <;> omega
  · cases k with
    | zero =>
      left
      omega
    | succ k =>
      rw [Nat.succ_mul] at hk hle hge
      right
      refine ⟨Or.inr ⟨k, ?_, ?_, ?_⟩, ?_⟩ <;> omega

/-- The sizes of the output tapes `d`, which is written next, and `o` as far as the blocks of the
input tapes are merged; the flag says whether `d` is the tape that a pass writes first. -/
def Phase (b : ℕ) (first : Bool) (c0 c1 d o : ℕ) : Prop :=
  (c0 = 0 ∧ c1 = 0 ∧ (if first then Staggered (2*b) d o else Staggered (2*b) o d)) ∨
  (Staggered b c0 c1 ∧ ∃ m, d = m*(2*b) ∧ o = (if first then m else m+1)*(2*b))

theorem Phase.start {b c0 c1 : ℕ} (h : Staggered b c0 c1) : Phase b true c0 c1 0 0 :=
  Or.inr ⟨h, 0, (Nat.zero_mul _).symm, (Nat.zero_mul _).symm⟩

theorem Phase.step {b c0 c1 d o : ℕ} {first : Bool} (h : Phase b first c0 c1 d o) (hb : 0 < b)
    (hc0 : c0 ≠ 0) :
    Phase b (!first) (c0-b) (c1-b) o (d+(min b c0+min b c1)) := by
  rcases h with ⟨hzero, _⟩ | ⟨hsizes, m, hd, ho⟩
  · exact absurd hzero hc0
  rcases hsizes.step hb with ⟨hnil0, hnil1, hshort⟩ | ⟨hrest, hfull⟩
  · -- the last block may be a short one
    refine Or.inl ⟨hnil0, hnil1, ?_⟩
    cases first with
    | true =>
      refine Or.inr ⟨m, ho, ?_, ?_⟩ <;> omega
    | false =>
      change o = (m+1)*(2*b) at ho
      rw [Nat.succ_mul] at ho
      refine Or.inl ⟨m+1, ?_, ?_, ?_⟩ <;> rw [Nat.succ_mul] <;> omega
  · refine Or.inr ⟨hrest, ?_⟩
    cases first with
    | true =>
      refine ⟨m, ho, ?_⟩
      change _ = (m+1)*(2*b)
      rw [Nat.succ_mul]
      omega
    | false =>
      refine ⟨m+1, ho, ?_⟩
      change _ = (m+1)*(2*b)
      rw [Nat.succ_mul]
      omega

theorem Phase.finish {b c1 d o : ℕ} {first : Bool} (h : Phase b first 0 c1 d o) :
    c1 = 0 ∧ (if first then Staggered (2*b) d o else Staggered (2*b) o d) := by
  rcases h with ⟨_, hzero, hsizes⟩ | ⟨hsizes, m, hd, ho⟩
  · exact ⟨hzero, hsizes⟩
  refine ⟨hsizes.zero, ?_⟩
  cases first with
  | true =>
    change o = m*(2*b) at ho
    refine Or.inl ⟨m, hd, ?_, ?_⟩ <;> omega
  | false =>
    change o = (m+1)*(2*b) at ho
    rw [Nat.succ_mul] at ho
    refine Or.inl ⟨m+1, ?_, ?_, ?_⟩ <;> rw [Nat.succ_mul] <;> omega

/-- Before the last block is written the output tapes have full blocks. -/
theorem Phase.full {b c0 c1 d o : ℕ} {first : Bool} (h : Phase b first c0 c1 d o) (hc0 : c0 ≠ 0) :
    ∃ m, d = m*(2*b) := by
  rcases h with ⟨hzero, _⟩ | ⟨_, m, hd, _⟩
  · exact absurd hzero hc0
  · exact ⟨m, hd⟩

variable {π : Type} [DecidableEq π] {next next' : Links π} {tape : Fin 4 → Tape π}
  {lists : Fin 4 → List π} (compare : π → π → Option Int) {R : π → π → Prop} {S : List π}

theorem flip_flip : ∀ i : Fin 4, i ^^^ 1 ^^^ 1 = i := by decide

theorem flip_ne : ∀ i : Fin 4, i ^^^ 1 ≠ i := by decide

/-- The blocks of the tapes that are read are in order, and so are the doubled ones of the tapes
that are written. -/
structure Ordered (R : π → π → Prop) (S : List π) (b : ℕ) (lists : Fin 4 → List π)
    (tape0 tape1 dest : Fin 4) : Prop where
  within0 : lists tape0 ⊆ S
  within1 : lists tape1 ⊆ S
  read0 : Blocks R b (lists tape0)
  read1 : Blocks R b (lists tape1)
  written : Blocks R (2*b) (lists dest)
  written' : Blocks R (2*b) (lists (dest ^^^ 1))

omit [DecidableEq π] in
/-- A block of each tape is merged to a doubled block. -/
theorem Ordered.step {b m : ℕ} {lists₁ : Fin 4 → List π} {tape0 tape1 dest : Fin 4}
    (h : Ordered R S b lists tape0 tape1 dest) (hkeeps : MergeKeeps S (before compare) R)
    (hfull : (lists dest).length = m*(2*b)) (hrest0 : lists₁ tape0 = (lists tape0).drop b)
    (hrest1 : lists₁ tape1 = (lists tape1).drop b)
    (hout : lists₁ dest = lists dest ++
      ((lists tape0).take b).merge ((lists tape1).take b) (before compare))
    (hother : lists₁ (dest ^^^ 1) = lists (dest ^^^ 1)) :
    Ordered R S b lists₁ tape0 tape1 (dest ^^^ 1) := by
  have hmerged := hkeeps _ _ (fun _ ha => h.within0 (List.mem_of_mem_take ha))
    (fun _ ha => h.within1 (List.mem_of_mem_take ha)) h.read0.take h.read1.take
  -- only the tape that has been written gets a block; the other fields lose one or stay
  refine ⟨?_, ?_, ?_, ?_, ?_, ?_⟩
  · rw [hrest0]
    exact fun _ ha => h.within0 (List.mem_of_mem_drop ha)
  · rw [hrest1]
    exact fun _ ha => h.within1 (List.mem_of_mem_drop ha)
  · rw [hrest0]
    exact h.read0.drop
  · rw [hrest1]
    exact h.read1.drop
  · rw [hother]
    exact h.written'
  · rw [flip_flip, hout]
    apply h.written.append hfull hmerged
    rw [List.length_merge, List.length_take, List.length_take]
    omega

/-- The merging of all blocks leaves the records of the two tapes that are read on the two tapes
that are written, in doubled blocks, and touches nothing else. -/
def BlocksMerged (R : π → π → Prop) (tape0 tape1 : Fin 4) (b fuel : ℕ) (dest other : Fin 4)
    (first : Bool) (tape : Fin 4 → Tape π) (next : Links π) (lists : Fin 4 → List π) : Prop :=
  ∃ tape' next' lists', mergeBlocks compare tape0 tape1 b fuel dest tape next =
      some (tape', next') ∧
    Held next' tape' lists' ∧ Ends (tape' dest) (lists' dest) ∧
    Ends (tape' other) (lists' other) ∧ lists' tape0 = [] ∧ lists' tape1 = [] ∧
    (lists' dest ++ lists' other).Perm
      (lists dest ++ lists other ++ (lists tape0 ++ lists tape1)) ∧
    (if first then Staggered (2*b) (lists' dest).length (lists' other).length
      else Staggered (2*b) (lists' other).length (lists' dest).length) ∧
    (∀ a, a ∉ lists tape0 → a ∉ lists tape1 → a ∉ lists dest → a ∉ lists other →
      next' a = next a) ∧
    Blocks R (2*b) (lists' dest) ∧ Blocks R (2*b) (lists' other)

section Blocks

variable {tape0 tape1 : Fin 4} {b : ℕ} {dest : Fin 4} {first : Bool}

/-- The first tape is the last one to become empty. -/
theorem BlocksMerged.nil (fuel : ℕ) (h : Held next tape lists)
    (hends : Ends (tape dest) (lists dest))
    (hends' : Ends (tape (dest ^^^ 1)) (lists (dest ^^^ 1)))
    (hphase : Phase b first (lists tape0).length (lists tape1).length (lists dest).length
      (lists (dest ^^^ 1)).length)
    (hordered : Ordered R S b lists tape0 tape1 dest) (hnil : lists tape0 = []) :
    BlocksMerged compare R tape0 tape1 b fuel dest (dest ^^^ 1) first tape next lists := by
  have hcount : (tape tape0).count = 0 := by
    rw [(h.holds tape0).count, hnil]
    rfl
  rw [hnil] at hphase
  obtain ⟨hzero, hsizes⟩ := hphase.finish
  have hnil1 := List.eq_nil_of_length_eq_zero hzero
  refine ⟨tape, next, lists, ?_, h, hends, hends', hnil, hnil1, ?_, hsizes, fun _ _ _ _ _ => rfl,
    hordered.written, hordered.written'⟩
  · cases fuel <;> rw [mergeBlocks, if_pos hcount]
  · rw [hnil, hnil1, List.append_nil, List.append_nil]

/-- One block is merged to `dest`, and the loop goes on with the tapes of output exchanged. -/
theorem BlocksMerged.block {fuel : ℕ} {tape₁ : Fin 4 → Tape π} {next₁ : Links π}
    {lists₁ : Fin 4 → List π} (hcount : (tape tape0).count ≠ 0)
    (hloop : mergeLoop compare tape0 tape1 dest (2*b) b b tape next = some (tape₁, next₁))
    (hrest0 : lists₁ tape0 = (lists tape0).drop b) (hrest1 : lists₁ tape1 = (lists tape1).drop b)
    (hmerged : (lists₁ dest).Perm
      (lists dest ++ ((lists tape0).take b ++ (lists tape1).take b)))
    (hother : lists₁ (dest ^^^ 1) = lists (dest ^^^ 1))
    (hlinks : ∀ a, a ∉ lists tape0 → a ∉ lists tape1 → a ∉ lists dest → next₁ a = next a)
    (hrest : BlocksMerged compare R tape0 tape1 b fuel (dest ^^^ 1) (dest ^^^ 1 ^^^ 1) (!first)
      tape₁ next₁ lists₁) :
    BlocksMerged compare R tape0 tape1 b (fuel+1) dest (dest ^^^ 1) first tape next lists := by
  obtain ⟨tape', next', lists', hblocks, hheld', hendsA, hendsB, hnil0, hnil1, hperm, hsizes,
    hsame, hwritten, hwritten'⟩ := hrest
  rw [flip_flip] at hendsB hperm hsizes hsame hwritten'
  refine ⟨tape', next', lists', ?_, hheld', hendsB, hendsA, hnil0, hnil1, ?_, ?_, ?_, hwritten',
    hwritten⟩
  · rw [mergeBlocks, if_neg hcount]
    change (mergeLoop compare tape0 tape1 dest (2*b) b b tape next >>= fun result => _) = _
    rw [hloop]
    exact hblocks
  · -- every record is counted in the block or in what is left
    rw [hother, hrest0, hrest1] at hperm
    rw [List.perm_iff_count]
    intro a
    have hnow := hmerged.count_eq a
    have hlater := hperm.count_eq a
    have hsplit0 := congrArg (List.count a) (List.take_append_drop b (lists tape0))
    have hsplit1 := congrArg (List.count a) (List.take_append_drop b (lists tape1))
    simp only [List.count_append] at hnow hlater hsplit0 hsplit1 ⊢
    omega
  · cases first with
    | true => exact hsizes
    | false => exact hsizes
  · intro a ha0 ha1 ha ha'
    have haout : a ∉ lists₁ dest := by
      rw [hmerged.mem_iff, List.mem_append, List.mem_append]
      intro hin
      rcases hin with hold | hnew0 | hnew1
      · exact ha hold
      · exact ha0 (List.mem_of_mem_take hnew0)
      · exact ha1 (List.mem_of_mem_take hnew1)
    rw [hsame a, hlinks a ha0 ha1 ha]
    · rw [hrest0]
      exact fun hin => ha0 (List.mem_of_mem_drop hin)
    · rw [hrest1]
      exact fun hin => ha1 (List.mem_of_mem_drop hin)
    · rwa [hother]
    · exact haout

end Blocks

/-- What the merging of all blocks of two tapes leaves. -/
theorem mergeBlocks_spec {tape0 tape1 : Fin 4} (b : ℕ) (hb : 0 < b) (h01 : tape0 ≠ tape1)
    (fuel : ℕ) (dest : Fin 4) (first : Bool) (h0 : tape0 ≠ dest) (h0' : tape0 ≠ dest ^^^ 1)
    (h1 : tape1 ≠ dest) (h1' : tape1 ≠ dest ^^^ 1) (hfuel : (lists tape0).length ≤ fuel)
    (h : Held next tape lists) (hends : Ends (tape dest) (lists dest))
    (hends' : Ends (tape (dest ^^^ 1)) (lists (dest ^^^ 1)))
    (hphase : Phase b first (lists tape0).length (lists tape1).length (lists dest).length
      (lists (dest ^^^ 1)).length)
    (htotal : ∀ a ∈ lists tape0, ∀ c ∈ lists tape1, ∃ order, compare a c = some order)
    (hkeeps : MergeKeeps S (before compare) R) (hordered : Ordered R S b lists tape0 tape1 dest) :
    BlocksMerged compare R tape0 tape1 b fuel dest (dest ^^^ 1) first tape next lists := by
  induction fuel generalizing dest first tape next lists with
  | zero =>
    have hnil : lists tape0 = [] := List.eq_nil_of_length_eq_zero (Nat.le_zero.mp hfuel)
    exact BlocksMerged.nil compare 0 h hends hends' hphase hordered hnil
  | succ fuel ih =>
    by_cases hnil : lists tape0 = []
    · exact BlocksMerged.nil compare (fuel+1) h hends hends' hphase hordered hnil
    have hlength : (lists tape0).length ≠ 0 :=
      fun hzero => hnil (List.eq_nil_of_length_eq_zero hzero)
    have hback := flip_flip dest
    obtain ⟨tape₁, next₁, lists₁, hloop, hheld, hends₁, hrest0, hrest1, hout, hframe, hlinks⟩ :=
      mergeLoop_spec compare h01 h0 h1 (2*b) b b (Nat.le_of_eq (Nat.two_mul b).symm) h hends htotal
    obtain ⟨htape', hlists'⟩ := hframe (dest ^^^ 1) h0'.symm h1'.symm (flip_ne dest)
    have hmerged : (lists₁ dest).Perm
        (lists dest ++ ((lists tape0).take b ++ (lists tape1).take b)) := by
      rw [hout]
      exact List.Perm.append_left _ (List.merge_perm_append _)
    have hphase' : Phase b (!first) (lists₁ tape0).length (lists₁ tape1).length
        (lists₁ (dest ^^^ 1)).length (lists₁ (dest ^^^ 1 ^^^ 1)).length := by
      have hlengthOut : (lists₁ dest).length =
          (lists dest).length+(min b (lists tape0).length+min b (lists tape1).length) := by
        rw [hmerged.length_eq, List.length_append, List.length_append, List.length_take,
          List.length_take]
      rw [hback, hrest0, hrest1, List.length_drop, List.length_drop, hlists', hlengthOut]
      exact hphase.step hb hlength
    have htotal' : ∀ a ∈ lists₁ tape0, ∀ c ∈ lists₁ tape1, ∃ order, compare a c = some order := by
      rw [hrest0, hrest1]
      exact fun a ha c hc => htotal a (List.mem_of_mem_drop ha) c (List.mem_of_mem_drop hc)
    have hfuel' : (lists₁ tape0).length ≤ fuel := by
      rw [hrest0, List.length_drop]
      omega
    obtain ⟨m, hfull⟩ := hphase.full hlength
    have hordered' := hordered.step compare hkeeps hfull hrest0 hrest1 hout hlists'
    apply BlocksMerged.block compare (by rwa [(h.holds tape0).count]) hloop hrest0 hrest1 hmerged
      hlists' hlinks
    exact ih (dest ^^^ 1) (!first) h0' (by rwa [hback]) h1' (by rwa [hback]) hfuel' hheld
      (by rwa [htape', hlists']) (by rwa [hback]) hphase' htotal' hordered'

omit [DecidableEq π] in
theorem Holds.nil (next : Links π) (t : Tape π) (h : t.count = 0) : Holds next t [] :=
  ⟨h, t.first, rfl⟩

omit [DecidableEq π] in
theorem Ends.nil (t : Tape π) : Ends t [] := by
  intro a ha
  exact absurd ha (by simp)

theorem Base.flip {base : Fin 4} (h : Base base) : Base (base ^^^ 2) := by
  rcases h with rfl | rfl
  · exact Or.inr rfl
  · exact Or.inl rfl

theorem Base.tapes {base : Fin 4} (h : Base base) :
    base ≠ base+1 ∧ base ≠ base ^^^ 2 ∧ base ≠ base ^^^ 2 ^^^ 1 ∧ base+1 ≠ base ^^^ 2 ∧
    base+1 ≠ base ^^^ 2 ^^^ 1 ∧ (base ^^^ 2)+1 = base ^^^ 2 ^^^ 1 := by
  rcases h with rfl | rfl <;> decide

theorem Base.others {base : Fin 4} (h : Base base) :
    ∀ i, i ≠ base → i ≠ base+1 → i = base ^^^ 2 ∨ i = base ^^^ 2 ^^^ 1 := by
  rcases h with rfl | rfl <;> decide

/-- The two tapes at the base hold these lists, and the first one knows its last record if it has
been written by a pass. -/
structure Pass (next : Links π) (tape : Fin 4 → Tape π) (base : Fin 4) (b : ℕ) (l0 l1 : List π) :
    Prop where
  isBase : Base base
  holds0 : Holds next (tape base) l0
  holds1 : Holds next (tape (base+1)) l1
  nodup : (l0 ++ l1).Nodup
  sizes : Staggered b l0.length l1.length
  ends : b = 1 ∨ Ends (tape base) l0

/-- The lists when there are records on two tapes only. -/
def twoTapes (tape0 tape1 : Fin 4) (l0 l1 : List π) (i : Fin 4) : List π :=
  if i = tape0 then l0 else if i = tape1 then l1 else []

section TwoTapes

variable {base tape0 tape1 : Fin 4} {b : ℕ} {l0 l1 : List π}

omit [DecidableEq π] in
theorem twoTapes_base : twoTapes tape0 tape1 l0 l1 tape0 = l0 := if_pos rfl

omit [DecidableEq π] in
theorem twoTapes_next (h : tape0 ≠ tape1) : twoTapes tape0 tape1 l0 l1 tape1 = l1 :=
  (if_neg h.symm).trans (if_pos rfl)

omit [DecidableEq π] in
theorem twoTapes_other {i : Fin 4} (hi : i ≠ tape0) (hi' : i ≠ tape1) :
    twoTapes tape0 tape1 l0 l1 i = [] :=
  (if_neg hi).trans (if_neg hi')

omit [DecidableEq π] in
theorem clearTape_other {i j k : Fin 4} (hi : k ≠ i) (hj : k ≠ j) :
    clearTape (clearTape tape i) j k = tape k :=
  (Function.update_of_ne hj _ _).trans (Function.update_of_ne hi _ _)

omit [DecidableEq π] in
theorem clearTape_count {i j k : Fin 4} (h : k = i ∨ k = j) :
    (clearTape (clearTape tape i) j k).count = 0 := by
  unfold clearTape
  by_cases hj : k = j
  · rw [hj, Function.update_self]
  · rw [Function.update_of_ne hj, h.resolve_right hj, Function.update_self]

omit [DecidableEq π] in
/-- What the tapes hold when a pass begins, with the two other tapes cleared. -/
theorem Pass.held (h : Pass next tape base b l0 l1) :
    Held next (clearTape (clearTape tape (base ^^^ 2)) (base ^^^ 2 ^^^ 1))
      (twoTapes base (base+1) l0 l1) := by
  obtain ⟨h01, h02, h03, h12, h13, -⟩ := h.isBase.tapes
  obtain ⟨hnodup0, hnodup1, hapart⟩ := List.nodup_append.mp h.nodup
  refine ⟨fun i => ?_, fun i => ?_, fun i j hij a hai haj => ?_⟩
  · by_cases hi : i = base
    · rw [hi, twoTapes_base, clearTape_other h02 h03]
      exact h.holds0
    by_cases hi' : i = base+1
    · rw [hi', twoTapes_next h01, clearTape_other h12 h13]
      exact h.holds1
    · rw [twoTapes_other hi hi']
      exact Holds.nil _ _ (clearTape_count (h.isBase.others i hi hi'))
  · by_cases hi : i = base
    · rw [hi, twoTapes_base]
      exact hnodup0
    by_cases hi' : i = base+1
    · rw [hi', twoTapes_next h01]
      exact hnodup1
    · rw [twoTapes_other hi hi']
      exact List.nodup_nil
  · by_cases hi : i = base
    · rw [hi, twoTapes_base] at hai
      by_cases hj : j = base+1
      · rw [hj, twoTapes_next h01] at haj
        exact hapart a hai a haj rfl
      · rw [twoTapes_other (fun hj' => hij (hi.trans hj'.symm)) hj] at haj
        exact List.not_mem_nil haj
    by_cases hi' : i = base+1
    · rw [hi', twoTapes_next h01] at hai
      by_cases hj : j = base
      · rw [hj, twoTapes_base] at haj
        exact hapart a haj a hai rfl
      · rw [twoTapes_other hj (fun hj' => hij (hi'.trans hj'.symm))] at haj
        exact List.not_mem_nil haj
    · rw [twoTapes_other hi hi'] at hai
      exact List.not_mem_nil hai

omit [DecidableEq π] in
/-- The blocks when a pass begins. -/
theorem Pass.ordered (h : Pass next tape base b l0 l1) (hwithin : l0 ++ l1 ⊆ S)
    (hblocks0 : Blocks R b l0) (hblocks1 : Blocks R b l1) :
    Ordered R S b (twoTapes base (base+1) l0 l1) base (base+1) (base ^^^ 2) := by
  obtain ⟨h01, h02, h03, h12, h13, -⟩ := h.isBase.tapes
  refine ⟨?_, ?_, ?_, ?_, ?_, ?_⟩
  · rw [twoTapes_base]
    exact fun _ ha => hwithin (List.mem_append_left _ ha)
  · rw [twoTapes_next h01]
    exact fun _ ha => hwithin (List.mem_append_right _ ha)
  · rwa [twoTapes_base]
  · rwa [twoTapes_next h01]
  · rw [twoTapes_other h02.symm h12.symm]
    exact blocks_nil
  · rw [twoTapes_other h03.symm h13.symm]
    exact blocks_nil

end TwoTapes

/-- One pass merges the blocks of the two tapes at the base to the two other tapes. -/
theorem Pass.step {base : Fin 4} {b : ℕ} {l0 l1 : List π} (h : Pass next tape base b l0 l1)
    (hb : 0 < b) (htotal : ∀ a ∈ l0, ∀ c ∈ l1, ∃ order, compare a c = some order)
    (hkeeps : MergeKeeps S (before compare) R) (hwithin : l0 ++ l1 ⊆ S) (hblocks0 : Blocks R b l0)
    (hblocks1 : Blocks R b l1) :
    ∃ tape' next' l0' l1', mergeBlocks compare base (base+1) b (tape base).count (base ^^^ 2)
        (clearTape (clearTape tape (base ^^^ 2)) ((base ^^^ 2)+1)) next = some (tape', next') ∧
      Pass next' tape' (base ^^^ 2) (2*b) l0' l1' ∧ Ends (tape' (base ^^^ 2)) l0' ∧
      (l0' ++ l1').Perm (l0 ++ l1) ∧ (∀ a, a ∉ l0 → a ∉ l1 → next' a = next a) ∧
      Blocks R (2*b) l0' ∧ Blocks R (2*b) l1' := by
  obtain ⟨h01, h02, h03, h12, h13, hplus⟩ := h.isBase.tapes
  have hlists0 : twoTapes base (base+1) l0 l1 base = l0 := twoTapes_base
  have hlists1 : twoTapes base (base+1) l0 l1 (base+1) = l1 := twoTapes_next h01
  have hdest : twoTapes base (base+1) l0 l1 (base ^^^ 2) = [] := twoTapes_other h02.symm h12.symm
  have hdest' : twoTapes base (base+1) l0 l1 (base ^^^ 2 ^^^ 1) = [] :=
    twoTapes_other h03.symm h13.symm
  obtain ⟨tape', next', lists', hblocks, hheld', hends, _, hnil0, hnil1, hperm, hsizes, hsame,
      hwritten, hwritten'⟩ :=
    mergeBlocks_spec compare b hb h01 (tape base).count (base ^^^ 2) true h02 h03 h12 h13
      (Nat.le_of_eq (by rw [hlists0, h.holds0.count])) h.held (by rw [hdest]; exact Ends.nil _)
      (by rw [hdest']; exact Ends.nil _) (by
        rw [hlists0, hlists1, hdest, hdest']
        exact Phase.start h.sizes) (by rw [hlists0, hlists1]; exact htotal) hkeeps
      (h.ordered hwithin hblocks0 hblocks1)
  rw [hdest, hdest', hlists0, hlists1, List.append_nil, List.nil_append] at hperm
  rw [hdest, hdest', hlists0, hlists1] at hsame
  rw [hplus]
  refine ⟨tape', next', lists' (base ^^^ 2), lists' (base ^^^ 2 ^^^ 1), hblocks,
    ⟨h.isBase.flip, hheld'.holds _, ?_, hperm.nodup_iff.mpr h.nodup, hsizes, Or.inr hends⟩, hends,
    hperm, fun a ha ha' => hsame a ha ha' List.not_mem_nil List.not_mem_nil, hwritten, hwritten'⟩
  rw [hplus]
  exact hheld'.holds _

/-- The passes end with all records on one tape. -/
theorem mergePasses_spec (fuel : ℕ) (base : Fin 4) (b : ℕ) (l0 l1 : List π) (hb : 0 < b)
    (h : Pass next tape base b l0 l1) (hfuel : (l0 ++ l1).length < fuel+b)
    (htotal : ∀ a ∈ l0 ++ l1, ∀ c ∈ l0 ++ l1, ∃ order, compare a c = some order)
    (hkeeps : MergeKeeps S (before compare) R) (hwithin : l0 ++ l1 ⊆ S) (hblocks0 : Blocks R b l0)
    (hblocks1 : Blocks R b l1) :
    ∃ base' b' tape' next' l', mergePasses compare fuel base b tape next =
        some (base', tape', next') ∧
      Pass next' tape' base' b' l' [] ∧ l'.Perm (l0 ++ l1) ∧
      (∀ a, a ∉ l0 ++ l1 → next' a = next a) ∧ Blocks R b' l' := by
  induction fuel generalizing base b l0 l1 tape next with
  | zero =>
    have hnil : l1 = [] := by
      by_contra hne
      have hle := h.sizes.block_le fun hzero => hne (List.eq_nil_of_length_eq_zero hzero)
      rw [List.length_append] at hfuel
      omega
    have hcount : (tape (base+1)).count = 0 := by rw [h.holds1.count, hnil]; rfl
    refine ⟨base, b, tape, next, l0, ?_, hnil ▸ h, ?_, fun _ _ => rfl, hblocks0⟩
    · rw [mergePasses, if_pos hcount]
    · rw [hnil, List.append_nil]
  | succ fuel ih =>
    by_cases hnil : l1 = []
    · have hcount : (tape (base+1)).count = 0 := by rw [h.holds1.count, hnil]; rfl
      refine ⟨base, b, tape, next, l0, ?_, hnil ▸ h, ?_, fun _ _ => rfl, hblocks0⟩
      · rw [mergePasses, if_pos hcount]
      · rw [hnil, List.append_nil]
    have hcount : (tape (base+1)).count ≠ 0 := by
      rw [h.holds1.count]
      exact fun hzero => hnil (List.eq_nil_of_length_eq_zero hzero)
    obtain ⟨tape₁, next₁, l0₁, l1₁, hblocks, hpass, _, hperm, hsame, hdone0, hdone1⟩ :=
      h.step compare hb
        (fun a ha c hc => htotal a (List.mem_append_left _ ha) c (List.mem_append_right _ hc))
        hkeeps hwithin hblocks0 hblocks1
    obtain ⟨base', b', tape', next', l', hpasses, hpass', hperm', hsame', hdone⟩ :=
      ih (base ^^^ 2) (2*b) l0₁ l1₁ (by omega) hpass (by
        rw [hperm.length_eq]
        omega) (fun a ha c hc => htotal a (hperm.mem_iff.mp ha) c (hperm.mem_iff.mp hc))
        (fun _ ha => hwithin (hperm.subset ha)) hdone0 hdone1
    refine ⟨base', b', tape', next', l', ?_, hpass', hperm'.trans hperm, ?_, hdone⟩
    · rw [mergePasses, if_neg hcount]
      change (mergeBlocks compare base (base+1) b (clearTape (clearTape tape (base ^^^ 2))
        ((base ^^^ 2)+1) base).count _ _ _ >>= fun result => _) = _
      have hsize : (clearTape (clearTape tape (base ^^^ 2)) ((base ^^^ 2)+1) base).count =
          (tape base).count := by
        obtain ⟨_, h02, h03, _, _, hplus⟩ := h.isBase.tapes
        unfold clearTape
        rw [hplus, Function.update_of_ne h03, Function.update_of_ne h02]
      rw [hsize, hblocks]
      exact hpasses
    · intro a ha
      rw [hsame' a fun hin => ha (hperm.mem_iff.mp hin), hsame a]
      · exact fun hin => ha (List.mem_append_left _ hin)
      · exact fun hin => ha (List.mem_append_right _ hin)

omit compare in
/-- The records go alternately to two tapes, in reverse order. -/
theorem distribute_spec {endMarker q q' : π} (fuel : ℕ) (p : π) (i : Fin 4) (l li lj : List π)
    (hchain : Seg id next p l endMarker) (hmarker : endMarker ∉ l) (hfuel : l.length ≤ fuel)
    (hi : Seg id next (tape i).first li q) (hicount : (tape i).count = li.length)
    (hj : Seg id next (tape (i ^^^ 1)).first lj q') (hjcount : (tape (i ^^^ 1)).count = lj.length)
    (hnodup : (l ++ (li ++ lj)).Nodup) :
    ∃ tape' next' li' lj', distribute endMarker fuel p i tape next = some (tape', next') ∧
      Seg id next' (tape' i).first li' q ∧ (tape' i).count = li'.length ∧
      Seg id next' (tape' (i ^^^ 1)).first lj' q' ∧ (tape' (i ^^^ 1)).count = lj'.length ∧
      (li' ++ lj').Perm (l ++ (li ++ lj)) ∧ li'.length = li.length+(l.length+1)/2 ∧
      lj'.length = lj.length+l.length/2 ∧ (∀ a, a ∉ l → next' a = next a) := by
  induction l generalizing fuel p i li lj q q' tape next with
  | nil =>
    have hp : p = endMarker := hchain
    refine ⟨tape, next, li, lj, ?_, hi, hicount, hj, hjcount, List.Perm.refl _, ?_, ?_,
      fun _ _ => rfl⟩
    · cases fuel <;> rw [distribute, if_pos hp]
    · simp
    · simp
  | cons a l ih =>
    obtain ⟨hp, following, hlink, hrest⟩ := hchain
    have hp : p = a := hp
    have hflip := flip_ne i
    cases fuel with
    | zero =>
      rw [List.length_cons] at hfuel
      omega
    | succ fuel =>
      have hne : p ≠ endMarker := by
        intro heq
        exact hmarker (heq ▸ hp ▸ List.mem_cons_self)
      rw [List.cons_append] at hnodup ⊢
      obtain ⟨ha, hnodup'⟩ := List.nodup_cons.mp hnodup
      rw [List.mem_append, List.mem_append] at ha
      let next₁ := Function.update next a (some (tape i).first)
      let tape₁ := Function.update tape i { tape i with first := a, count := (tape i).count+1 }
      have hother : ∀ c, c ≠ a → next₁ c = next c := fun c hc => Function.update_of_ne hc _ _
      have hself : tape₁ i = { tape i with first := a, count := (tape i).count+1 } :=
        Function.update_self _ _ _
      have hkept : tape₁ (i ^^^ 1) = tape (i ^^^ 1) := Function.update_of_ne hflip _ _
      have hai : a ∉ li := fun hin => ha (Or.inr (Or.inl hin))
      have haj : a ∉ lj := fun hin => ha (Or.inr (Or.inr hin))
      have hal : a ∉ l := fun hin => ha (Or.inl hin)
      have hpushed : Seg id next₁ a (a :: li) q :=
        hi.push a hai (Function.update_self _ _ _) hother
      have hjkept : Seg id next₁ (tape₁ (i ^^^ 1)).first lj q' := by
        rw [hkept]
        exact hj.congr fun c hc => hother c fun hca => haj (hca ▸ hc)
      have hswapped : (l ++ (lj ++ a :: li)).Perm (a :: (l ++ (li ++ lj))) := by
        rw [List.perm_iff_count]
        intro c
        simp only [List.count_append, List.count_cons]
        omega
      obtain ⟨tape', next', lj', li', hrun, hj', hjcount', hi', hicount', hperm, hjlength, hilength,
          hsame⟩ := ih fuel following (i ^^^ 1) lj (a :: li)
        (hrest.congr fun c hc => hother c fun hca => hal (hca ▸ hc))
        (fun hin => hmarker (List.mem_cons_of_mem a hin)) (by
          rw [List.length_cons] at hfuel
          omega) hjkept (by rw [hkept, hjcount]) (by
          rw [flip_flip, hself]
          exact hpushed) (by rw [flip_flip, hself, hicount]; rfl) (hswapped.nodup_iff.mpr hnodup)
      rw [flip_flip] at hi' hicount'
      refine ⟨tape', next', li', lj', ?_, hi', hicount', hj', hjcount',
        (List.perm_append_comm.trans hperm).trans hswapped, ?_, ?_, ?_⟩
      · rw [distribute, if_neg hne, hp]
        rw [hlink]
        change (setLink next a (tape i).first >>= fun next => _) = _
        rw [setLink_eq a (tape i).first following hlink]
        exact hrun
      · rw [hilength, List.length_cons, List.length_cons]
        omega
      · rw [hjlength, List.length_cons]
      · intro c hc
        rw [List.mem_cons, not_or] at hc
        rw [hsame c hc.2, hother c hc.1]

/-- What is left of the sort when the records have been dealt out. -/
theorem sortLinkedList_eq {null endMarker p : π} {stack tape₀ tape₁ : Fin 4 → Tape π}
    {next₁ : Links π} {fuel : ℕ}
    (hstack : tape₀ = Function.update (clearTape (clearTape stack 0) 1) 0
      { clearTape (clearTape stack 0) 1 0 with first := null })
    (hdistribute : distribute endMarker fuel p 0 tape₀ next = some (tape₁, next₁)) :
    sortLinkedList null stack compare fuel endMarker p next =
      (mergePasses compare ((tape₁ 0).count+(tape₁ 1).count) 0 1 tape₁ next₁ >>= fun result =>
        (if (result.2.1 result.1).count > 1 then
          setLink result.2.2 (result.2.1 result.1).last endMarker else some result.2.2) >>=
        fun next => some ((result.2.1 result.1).first, (result.2.1 result.1).count, next)) := by
  unfold sortLinkedList
  rw [hstack] at hdistribute
  change (distribute endMarker fuel p 0 _ next >>= fun result => _) = _
  rw [hdistribute]
  change (mergePasses compare ((tape₁ 0).count+(tape₁ 1).count) 0 1 tape₁ next₁ >>= _) = _
  congr 1
  funext result
  obtain ⟨base, tape', next'⟩ := result
  by_cases hmany : (tape' base).count > 1
  · simp only [if_pos hmany]
    rfl
  · simp only [if_neg hmany]
    rfl

/-- A list that ends has no record twice, also when there is something at its end marker. -/
theorem nodup_of_seg {p endMarker : π} {l : List π} (hchain : Seg id next p l endMarker)
    (hoff : endMarker ∉ l) : l.Nodup := by
  have hcut : Seg id (Function.update next endMarker none) p l endMarker := by
    apply hchain.congr
    intro a ha
    apply Function.update_of_ne
    rintro rfl
    exact hoff ha
  apply hcut.nodup Function.injective_id
  intro a r ha heq
  have heq : a = endMarker := heq
  rw [heq, Function.update_self] at ha
  exact Option.some_ne_none r ha.symm

/-- The link of the last record is set when all records are on one tape. -/
theorem Pass.close {base : Fin 4} {b : ℕ} {l : List π} (h : Pass next tape base b l [])
    (hmany : 1 < l.length) (endMarker : π) :
    ∃ next', (if (tape base).count > 1 then setLink next (tape base).last endMarker
        else some next) = some next' ∧
      Seg id next' (tape base).first l endMarker ∧ ∀ a, a ∉ l → next' a = next a := by
  have hends : Ends (tape base) l := by
    apply h.ends.resolve_left
    rintro rfl
    -- a pass must have been made, since a tape of blocks of one record is a short one
    have hle := h.sizes.single
    omega
  have hnonempty : l ≠ [] := by
    rintro rfl
    exact absurd hmany (by simp)
  obtain ⟨front, z, r, hsplit, hlast, hr⟩ := h.holds0.exists_last hends hnonempty
  have hnodup := h.nodup
  rw [List.append_nil] at hnodup
  refine ⟨Function.update next z (some endMarker), ?_, ?_, fun a ha => ?_⟩
  · rw [if_pos (by rwa [h.holds0.count]), hlast, setLink_eq z endMarker r hr]
  · have hholds := h.holds0
    rw [hsplit] at hholds hnodup ⊢
    obtain ⟨_, _, hfront⟩ := List.nodup_append.mp hnodup
    exact hholds.close (fun hin => hfront z hin z List.mem_cons_self rfl) endMarker
  · apply Function.update_of_ne
    rintro rfl
    apply ha
    rw [hsplit]
    exact List.mem_append_right _ List.mem_cons_self

/-- The sort terminates and returns a list of the same records in order, which are all that it
relinks. The list ends in the end marker, unless there are less than two records: then it ends in
the null pointer. -/
theorem sortLinkedList_ordered (null endMarker p : π) (stack : Fin 4 → Tape π) (fuel : ℕ)
    (l : List π) (hchain : Seg id next p l endMarker) (hoff : endMarker ∉ l)
    (hfuel : l.length ≤ fuel)
    (htotal : ∀ a ∈ l, ∀ c ∈ l, ∃ order, compare a c = some order)
    (hkeeps : MergeKeeps l (before compare) R) :
    ∃ first next' l', sortLinkedList null stack compare fuel endMarker p next =
        some (first, l.length, next') ∧
      l'.Perm l ∧ Seg id next' first l' (if 1 < l.length then endMarker else null) ∧
      (∀ a, a ∉ l → next' a = next a) ∧ l'.Pairwise R := by
  have hnodup := nodup_of_seg hchain hoff
  -- the records are dealt out to two tapes in turn
  let stack₀ := clearTape (clearTape stack 0) 1
  let tape₀ := Function.update stack₀ 0 { stack₀ 0 with first := null }
  obtain ⟨tape₁, next₁, l0, l1, hdistribute, hseg0, hcount0, hseg1, hcount1, hperm, hlength0,
      hlength1, hsame⟩ := distribute_spec fuel p 0 l [] [] hchain hoff hfuel
    (show Seg id next (tape₀ 0).first [] null from rfl) rfl
    (show Seg id next (tape₀ (0 ^^^ 1)).first [] (tape₀ 1).first from rfl) rfl
    (by rwa [List.append_nil, List.append_nil])
  rw [List.append_nil, List.append_nil] at hperm
  rw [List.length_nil, Nat.zero_add] at hlength0 hlength1
  rw [sortLinkedList_eq compare rfl hdistribute]
  by_cases hshort : l.length ≤ 1
  · -- there is nothing to merge
    have hnil : l1 = [] := by
      apply List.eq_nil_of_length_eq_zero
      omega
    have hzero : (tape₁ (0+1)).count = 0 := by
      change (tape₁ (0 ^^^ 1)).count = 0
      rw [hcount1, hnil]
      rfl
    have hpasses : mergePasses compare ((tape₁ 0).count+(tape₁ 1).count) 0 1 tape₁ next₁ =
        some (0, tape₁, next₁) := by
      cases (tape₁ 0).count+(tape₁ 1).count <;> rw [mergePasses, if_pos hzero]
    rw [hnil, List.append_nil] at hperm
    have hcount : (tape₁ 0).count = l.length := by rw [hcount0, hperm.length_eq]
    refine ⟨(tape₁ 0).first, next₁, l0, ?_, hperm, ?_, hsame,
      (blocks_one l0).pairwise (hperm.length_eq ▸ hshort)⟩
    · rw [hpasses]
      change ((if (tape₁ 0).count > 1 then _ else some next₁) >>= fun next => _) = _
      rw [if_neg (by omega)]
      change some ((tape₁ 0).first, (tape₁ 0).count, next₁) = _
      rw [hcount]
    · rwa [if_neg (by omega)]
  · -- the passes merge the two tapes to one, whose last link is set at the end
    have hpass : Pass next₁ tape₁ 0 1 l0 l1 := by
      refine ⟨Or.inl rfl, ⟨hcount0, null, hseg0⟩, ⟨hcount1, (tape₀ 1).first, hseg1⟩,
        hperm.nodup_iff.mpr hnodup, Or.inl ⟨l0.length, ?_, ?_, ?_⟩, Or.inl rfl⟩ <;> omega
    have hcount1 : (tape₁ 1).count = l1.length := hcount1
    obtain ⟨base, b, tape', next', l', hpasses, hdone, hperm', hsame', hblocks⟩ :=
      mergePasses_spec compare ((tape₁ 0).count+(tape₁ 1).count) 0 1 l0 l1 Nat.one_pos hpass (by
        rw [hcount0, hcount1, List.length_append]
        omega) (fun a ha c hc => htotal a (hperm.mem_iff.mp ha) c (hperm.mem_iff.mp hc))
        hkeeps hperm.subset (blocks_one l0) (blocks_one l1)
    have hpermAll := hperm'.trans hperm
    have hcount : (tape' base).count = l.length := by rw [hdone.holds0.count, hpermAll.length_eq]
    obtain ⟨next'', hlink, hclosed, hkept⟩ := hdone.close (by
      rw [hpermAll.length_eq]
      omega) endMarker
    refine ⟨(tape' base).first, next'', l', ?_, hpermAll, ?_, fun a ha => ?_,
      hblocks.pairwise hdone.sizes.single⟩
    · rw [hpasses]
      change ((if (tape' base).count > 1 then setLink next' (tape' base).last endMarker else
        some next') >>= fun next => _) = _
      rw [hlink]
      change some ((tape' base).first, (tape' base).count, _) = _
      rw [hcount]
    · rwa [if_pos (by omega)]
    · rw [hkept a fun hin => ha (hpermAll.mem_iff.mp hin),
        hsame' a fun hin => ha (hperm.mem_iff.mp hin), hsame a ha]

/-- Whatever the comparison is, the sort returns a list of the same records. -/
theorem sortLinkedList_spec (null endMarker p : π) (stack : Fin 4 → Tape π) (fuel : ℕ) (l : List π)
    (hchain : Seg id next p l endMarker) (hmarker : next endMarker = none) (hfuel : l.length ≤ fuel)
    (htotal : ∀ a ∈ l, ∀ c ∈ l, ∃ order, compare a c = some order) :
    ∃ first next' l', sortLinkedList null stack compare fuel endMarker p next =
        some (first, l.length, next') ∧
      l'.Perm l ∧ Seg id next' first l' (if 1 < l.length then endMarker else null) ∧
      (∀ a, a ∉ l → next' a = next a) := by
  have hoff : endMarker ∉ l := by
    intro hin
    obtain ⟨r, hr⟩ := hchain.link endMarker hin
    rw [hmarker] at hr
    exact Option.some_ne_none r hr.symm
  obtain ⟨first, next', l', hrun, hperm, hseg, hsame, _⟩ :=
    sortLinkedList_ordered compare null endMarker p stack fuel l hchain hoff hfuel htotal
      (mergeKeeps_true l _)
  exact ⟨first, next', l', hrun, hperm, hseg, hsame⟩

end LibAtrinik.SortLinkedList

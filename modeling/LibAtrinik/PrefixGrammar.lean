import Mathlib

/-! State-passing parsers and the languages that they recognize. A parser recognizes a language
for each of its values: it succeeds with a value exactly when a word of the value's language
comes next, and then moves past that word. -/
namespace PrefixGrammar

open Computability

variable {σ τ ι α β γ : Type}

/-- What a parser sees of its state: the word that is left, and how to move past a part of it. -/
structure Cursor (σ β : Type) where
  rest : σ → List β
  advance : σ → ℕ → σ
  good : σ → Prop
  good_advance : ∀ s n, good s → n ≤ (rest s).length → good (advance s n)
  rest_advance : ∀ s n, good s → n ≤ (rest s).length → rest (advance s n) = (rest s).drop n
  advance_zero : ∀ s, good s → advance s 0 = s
  advance_advance : ∀ s m n, good s → m+n ≤ (rest s).length →
    advance (advance s m) n = advance s (m+n)

def Recognizes (c : Cursor σ β) (parser : StateT σ Option α) (L : α → Language β) : Prop :=
  ∀ s, c.good s → ∀ a s', parser s = some (a, s') ↔
    ∃ word ∈ L a, word <+: c.rest s ∧ s' = c.advance s word.length

variable {c : Cursor σ β} {parser : StateT σ Option α} {L : α → Language β}

theorem Recognizes.congr {M : α → Language β} (h : Recognizes c parser L)
    (hLM : ∀ a, L a = M a) : Recognizes c parser M := by
  obtain rfl : L = M := funext hLM
  exact h

/-- Parsers that do the same recognize the same. -/
theorem Recognizes.of_eq {parser' : StateT σ Option α} (h : Recognizes c parser L)
    (he : ∀ s, c.good s → parser' s = parser s) : Recognizes c parser' L := by
  intro s hs a s'
  rw [he s hs]
  exact h s hs a s'

theorem recognizes_pure (a : α) : Recognizes c (pure a) (fun a' => ⨆ _ : a' = a, 1) := by
  intro s hs a' s'
  show some (a, s) = some (a', s') ↔ _
  constructor
  · intro h
    obtain ⟨rfl, rfl⟩ := Prod.mk.inj (Option.some.inj h)
    exact ⟨[], Language.mem_iSup.mpr ⟨rfl, rfl⟩, List.nil_prefix, (c.advance_zero s hs).symm⟩
  · rintro ⟨word, hword, _, rfl⟩
    obtain ⟨rfl, rfl⟩ := Language.mem_iSup.mp hword
    rw [List.length_nil, c.advance_zero s hs]

/-- A language under a condition that holds. -/
theorem given_true {p : Prop} (hp : p) (K : Language β) : (⨆ _ : p, K) = K :=
  Language.ext fun _ => Language.mem_iSup.trans ⟨fun h => h.2, fun h => ⟨hp, h⟩⟩

theorem given_false {p : Prop} (hp : ¬p) (K : Language β) : (⨆ _ : p, K) = 0 :=
  Language.ext fun word => Language.mem_iSup.trans
    (iff_of_false (fun h => hp h.1) (Language.notMem_zero word))

/-- A parser without a value that does nothing. -/
theorem recognizes_unit : Recognizes c (pure ()) (fun _ => 1) :=
  (recognizes_pure ()).congr fun _ => given_true rfl 1

theorem recognizes_failure : Recognizes c (failure : StateT σ Option α) (fun _ => 0) := by
  intro s _ a s'
  constructor
  · intro h
    cases h
  · rintro ⟨word, hword, _⟩
    exact absurd hword (Language.notMem_zero word)

theorem Recognizes.bind {f : α → StateT σ Option γ} {M : α → γ → Language β}
    (h : Recognizes c parser L) (hf : ∀ a, Recognizes c (f a) (M a)) :
    Recognizes c (parser >>= f) (fun b => ⨆ a, L a*M a b) := by
  intro s hs b s'
  have hbind : (parser >>= f) s = some (b, s') ↔
      ∃ a s₁, parser s = some (a, s₁) ∧ f a s₁ = some (b, s') := by
    show (parser s).bind (fun x => f x.1 x.2) = some (b, s') ↔ _
    rw [Option.bind_eq_some_iff, Prod.exists]
  rw [hbind]
  constructor
  · rintro ⟨a, s₁, hp, hq⟩
    obtain ⟨xs, hL, ⟨tail, htail⟩, rfl⟩ := (h s hs a s₁).mp hp
    have hle : xs.length ≤ (c.rest s).length := by rw [← htail, List.length_append]; omega
    obtain ⟨ys, hM, hys, rfl⟩ := (hf a _ (c.good_advance s _ hs hle) b s').mp hq
    rw [c.rest_advance s _ hs hle, ← htail, List.drop_left] at hys
    obtain ⟨more, rfl⟩ := hys
    refine ⟨xs ++ ys, Language.mem_iSup.mpr ⟨a, Language.append_mem_mul hL hM⟩,
      ⟨more, by rw [← htail, List.append_assoc]⟩, ?_⟩
    rw [List.length_append, c.advance_advance s _ _ hs]
    rw [← htail, List.length_append, List.length_append]
    omega
  · rintro ⟨word, hword, ⟨more, hmore⟩, rfl⟩
    obtain ⟨a, hmul⟩ := Language.mem_iSup.mp hword
    obtain ⟨xs, hL, ys, hM, rfl⟩ := Language.mem_mul.mp hmul
    rw [List.append_assoc] at hmore
    have hle : xs.length ≤ (c.rest s).length := by rw [← hmore, List.length_append]; omega
    have hfirst := (h s hs a _).mpr ⟨xs, hL, ⟨ys ++ more, hmore⟩, rfl⟩
    refine ⟨a, _, hfirst, (hf a _ (c.good_advance s _ hs hle) b _).mpr ⟨ys, hM, ?_, ?_⟩⟩
    · rw [c.rest_advance s _ hs hle, ← hmore, List.drop_left]
      exact ⟨more, rfl⟩
    · rw [List.length_append, c.advance_advance s _ _ hs]
      rw [← hmore, List.length_append, List.length_append]
      omega

/-- A parser without a value, followed by another one. -/
theorem Recognizes.andThen {first : StateT σ Option Unit} {K : Language β}
    (h : Recognizes c first (fun _ => K)) (hp : Recognizes c parser L) :
    Recognizes c (first >>= fun _ => parser) (fun a => K*L a) :=
  (h.bind fun _ => hp).congr fun _ =>
    Language.ext fun _ => Language.mem_iSup.trans ⟨fun ⟨_, hw⟩ => hw, fun hw => ⟨(), hw⟩⟩

/-- A test, followed by a parser that may rely on it. -/
theorem Recognizes.guarded {p : Prop} [Decidable p] (h : p → Recognizes c parser L) :
    Recognizes c (guard p >>= fun _ => parser) (fun a => ⨆ _ : p, L a) := by
  by_cases hp : p
  · rw [guard, if_pos hp]
    exact (recognizes_unit.andThen (h hp)).congr fun a => by rw [one_mul, given_true hp]
  · rw [guard, if_neg hp]
    exact recognizes_failure.congr fun a => (given_false hp (L a)).symm

/-- A test that comes last. -/
theorem recognizes_guard {p : Prop} [Decidable p] :
    Recognizes c (guard p) (fun _ => ⨆ _ : p, 1) := by
  by_cases hp : p
  · rw [guard, if_pos hp]
    exact recognizes_unit.congr fun _ => (given_true hp 1).symm
  · rw [guard, if_neg hp]
    exact recognizes_failure.congr fun _ => (given_false hp 1).symm

/-- A parser that is left out unless the condition holds. -/
def whenever (p : Prop) [Decidable p] (parser : StateT σ Option Unit) : StateT σ Option Unit :=
  if p then parser else pure ()

/-- A language whose words are left out unless the condition holds. -/
def present (p : Prop) [Decidable p] (K : Language β) : Language β := if p then K else 1

theorem recognizes_whenever {p : Prop} [Decidable p] {parser : StateT σ Option Unit}
    {K : Language β} (h : Recognizes c parser (fun _ => K)) :
    Recognizes c (whenever p parser) (fun _ => present p K) := by
  unfold whenever present
  split_ifs
  · exact h
  · exact recognizes_unit

/-- A parser for each case of a condition. -/
theorem recognizes_ite {p : Prop} [Decidable p] {parser' : StateT σ Option α}
    {L' : α → Language β} (h : p → Recognizes c parser L) (h' : ¬p → Recognizes c parser' L') :
    Recognizes c (if p then parser else parser') (fun a => if p then L a else L' a) := by
  by_cases hp : p
  · simp only [if_pos hp]
    exact h hp
  · simp only [if_neg hp]
    exact h' hp

/-- A counted loop whose body updates a variable. -/
def loop (body : τ → StateT σ Option τ) : ℕ → τ → StateT σ Option τ
  | 0, t => pure t
  | n+1, t => body t >>= loop body n

/-- The lists of `n` distinct keys that can be marked in `t` one after the other. -/
def Fresh (P : ι → Prop) (marked : τ → ι → Prop) (mark : τ → ι → τ) (n : ℕ) (t t' : τ)
    (keys : List ι) : Prop :=
  keys.length = n ∧ keys.Nodup ∧ (∀ k ∈ keys, P k ∧ ¬marked t k) ∧ t' = keys.foldl mark t

/-- A loop that parses one item per round, refuses an item whose key has been marked and marks
the others: the items follow each other, and their keys are distinct. -/
theorem recognizes_loop (body : τ → StateT σ Option τ) (P : ι → Prop) (marked : τ → ι → Prop)
    (mark : τ → ι → τ) (K : ι → Language β)
    (hmark : ∀ t i j, P i → P j → (marked (mark t i) j ↔ j = i ∨ marked t j))
    (hbody : ∀ t, Recognizes c (body t)
      (fun t' => ⨆ (i) (_ : P i ∧ ¬marked t i ∧ t' = mark t i), K i)) (n : ℕ) (t : τ) :
    Recognizes c (loop body n t)
      (fun t' => ⨆ (keys) (_ : Fresh P marked mark n t t' keys), (keys.map K).prod) := by
  induction n generalizing t with
  | zero =>
    refine (recognizes_pure t).congr fun t' => Language.ext fun word => ?_
    simp only [Language.mem_iSup]
    constructor
    · rintro ⟨rfl, hw⟩
      exact ⟨[], ⟨rfl, List.nodup_nil, fun k hk => (List.not_mem_nil hk).elim, rfl⟩, hw⟩
    · rintro ⟨keys, ⟨hlen, _, _, ht⟩, hw⟩
      obtain rfl := List.length_eq_zero_iff.mp hlen
      exact ⟨ht, hw⟩
  | succ n ih =>
    refine ((hbody t).bind fun t₁ => ih t₁).congr fun t' => Language.ext fun word => ?_
    simp only [Language.mem_iSup]
    constructor
    · rintro ⟨t₁, hw⟩
      obtain ⟨xs, hxs, ys, hys, rfl⟩ := Language.mem_mul.mp hw
      simp only [Language.mem_iSup] at hxs hys
      obtain ⟨i, ⟨hP, hfree, rfl⟩, hxs⟩ := hxs
      obtain ⟨keys, ⟨hlen, hnodup, hkeys, rfl⟩, hys⟩ := hys
      -- the later keys differ from the first one, because that has been marked
      have hlater (k : ι) (hk : k ∈ keys) : k ≠ i ∧ ¬marked t k := by
        have hno := (hkeys k hk).2
        rw [hmark t i k hP (hkeys k hk).1] at hno
        exact not_or.mp hno
      refine ⟨i :: keys, ⟨?_, ?_, ?_, rfl⟩, ?_⟩
      · rw [List.length_cons, hlen]
      · exact List.nodup_cons.mpr ⟨fun hk => (hlater i hk).1 rfl, hnodup⟩
      · intro k hk
        rcases List.mem_cons.mp hk with rfl | hk
        · exact ⟨hP, hfree⟩
        · exact ⟨(hkeys k hk).1, (hlater k hk).2⟩
      · rw [List.map_cons, List.prod_cons]
        exact Language.append_mem_mul hxs hys
    · rintro ⟨keys, ⟨hlen, hnodup, hkeys, rfl⟩, hw⟩
      obtain ⟨i, keys, rfl⟩ := List.exists_cons_of_length_eq_add_one hlen
      rw [List.map_cons, List.prod_cons] at hw
      obtain ⟨xs, hxs, ys, hys, rfl⟩ := Language.mem_mul.mp hw
      obtain ⟨hi, hnodup⟩ := List.nodup_cons.mp hnodup
      have hfirst := hkeys i List.mem_cons_self
      refine ⟨mark t i, Language.append_mem_mul ?_ ?_⟩
      · simp only [Language.mem_iSup]
        exact ⟨i, ⟨hfirst.1, hfirst.2, rfl⟩, hxs⟩
      · simp only [Language.mem_iSup]
        refine ⟨keys, ⟨Nat.succ.inj hlen, hnodup, ?_, rfl⟩, hys⟩
        intro k hk
        have hk' := hkeys k (List.mem_cons_of_mem i hk)
        refine ⟨hk'.1, ?_⟩
        rw [hmark t i k hfirst.1 hk'.1]
        exact not_or.mpr ⟨fun he => hi (he ▸ hk), hk'.2⟩

/-- A key is marked after a loop if it was before, or if it is one of those of the loop. -/
theorem marked_foldl (P : ι → Prop) (marked : τ → ι → Prop) (mark : τ → ι → τ)
    (hmark : ∀ t i j, P i → P j → (marked (mark t i) j ↔ j = i ∨ marked t j)) (keys : List ι)
    (hkeys : ∀ k ∈ keys, P k) (t : τ) (j : ι) (hj : P j) :
    marked (keys.foldl mark t) j ↔ j ∈ keys ∨ marked t j := by
  induction keys generalizing t with
  | nil => exact (or_iff_right List.not_mem_nil).symm
  | cons k keys ih =>
    rw [List.foldl_cons, ih (fun i hi => hkeys i (List.mem_cons_of_mem k hi)),
      hmark t k j (hkeys k List.mem_cons_self) hj, List.mem_cons, ← or_assoc,
      or_comm (a := j ∈ keys)]

/-- The sequences of `n` items whose keys are distinct. -/
def distinct (P : ι → Prop) (K : ι → Language β) (n : ℕ) : Language β :=
  ⨆ (keys : List ι) (_ : keys.length = n ∧ keys.Nodup ∧ ∀ k ∈ keys, P k), (keys.map K).prod

/-- Such a loop, started without a mark, and a parser that does not look at the marks. -/
theorem Recognizes.loopThen (body : τ → StateT σ Option τ) (P : ι → Prop)
    (marked : τ → ι → Prop) (mark : τ → ι → τ) (K : ι → Language β)
    (hmark : ∀ t i j, P i → P j → (marked (mark t i) j ↔ j = i ∨ marked t j))
    (hbody : ∀ t, Recognizes c (body t)
      (fun t' => ⨆ (i) (_ : P i ∧ ¬marked t i ∧ t' = mark t i), K i)) (n : ℕ) (t : τ)
    (ht : ∀ i, ¬marked t i) (hp : Recognizes c parser L) :
    Recognizes c (loop body n t >>= fun _ => parser) (fun a => distinct P K n*L a) := by
  refine ((recognizes_loop body P marked mark K hmark hbody n t).bind fun _ => hp).congr
    fun a => Language.ext fun word => ?_
  rw [Language.mem_iSup, Language.mem_mul]
  constructor
  · rintro ⟨t', hw⟩
    obtain ⟨xs, hxs, ys, hys, rfl⟩ := Language.mem_mul.mp hw
    obtain ⟨keys, hxs⟩ := Language.mem_iSup.mp hxs
    obtain ⟨⟨hlen, hnodup, hkeys, _⟩, hxs⟩ := Language.mem_iSup.mp hxs
    refine ⟨xs, Language.mem_iSup.mpr ⟨keys, Language.mem_iSup.mpr ⟨?_, hxs⟩⟩, ys, hys, rfl⟩
    exact ⟨hlen, hnodup, fun k hk => (hkeys k hk).1⟩
  · rintro ⟨xs, hxs, ys, hys, rfl⟩
    obtain ⟨keys, hxs⟩ := Language.mem_iSup.mp hxs
    obtain ⟨⟨hlen, hnodup, hkeys⟩, hxs⟩ := Language.mem_iSup.mp hxs
    refine ⟨keys.foldl mark t, Language.append_mem_mul ?_ hys⟩
    refine Language.mem_iSup.mpr ⟨keys, Language.mem_iSup.mpr ⟨?_, hxs⟩⟩
    exact ⟨hlen, hnodup, fun k hk => ⟨hkeys k hk, ht k⟩, rfl⟩

/-- A loop that parses items until the end of the input. -/
def untilEnd (atEnd : σ → Bool) (item : StateT σ Option Unit) : ℕ → σ → Option σ
  | 0, _ => none
  | fuel+1, s => if atEnd s then some s else (item s).bind fun r => untilEnd atEnd item fuel r.2

/-- The loop comes through exactly if the input is a sequence of items. An item is not empty, so
there are enough rounds if there is one more than the length of the input. -/
theorem untilEnd_eq_some (atEnd : σ → Bool) (item : StateT σ Option Unit) (K : Language β)
    (hend : ∀ s, c.good s → (atEnd s = true ↔ c.rest s = []))
    (hitem : Recognizes c item (fun _ => K)) (hne : [] ∉ K) (fuel : ℕ) (s s' : σ)
    (hs : c.good s) (hfuel : (c.rest s).length < fuel) :
    untilEnd atEnd item fuel s = some s' ↔
      c.rest s ∈ K∗ ∧ s' = c.advance s (c.rest s).length := by
  induction fuel generalizing s with
  | zero => omega
  | succ fuel ih =>
    rw [untilEnd]
    by_cases hempty : c.rest s = []
    · rw [if_pos ((hend s hs).mpr hempty), hempty, List.length_nil, c.advance_zero s hs]
      rw [Option.some_inj]
      exact ⟨fun h => ⟨Language.nil_mem_kstar K, h.symm⟩, fun h => h.2.symm⟩
    rw [if_neg (mt (hend s hs).mp hempty), Option.bind_eq_some_iff]
    have hstep (word : List β) (hw : word ∈ K) (tail : List β) (htail : word ++ tail = c.rest s) :
        untilEnd atEnd item fuel (c.advance s word.length) = some s' ↔
          tail ∈ K∗ ∧ s' = c.advance s (c.rest s).length := by
      have hpos : 0 < word.length := List.length_pos_iff.mpr fun h => hne (h ▸ hw)
      have hlen := congrArg List.length htail
      rw [List.length_append] at hlen
      have hle : word.length ≤ (c.rest s).length := by omega
      have hrest : c.rest (c.advance s word.length) = tail := by
        rw [c.rest_advance s _ hs hle, ← htail, List.drop_left]
      rw [ih _ (c.good_advance s _ hs hle) (by rw [hrest]; omega), hrest,
        c.advance_advance s _ _ hs (by omega), hlen]
    constructor
    · rintro ⟨⟨_, s₁⟩, hone, hmore⟩
      obtain ⟨word, hw, ⟨tail, htail⟩, rfl⟩ := (hitem s hs () s₁).mp hone
      obtain ⟨htail', hadv⟩ := (hstep word hw tail htail).mp hmore
      refine ⟨?_, hadv⟩
      rw [← htail, ← Language.one_add_self_mul_kstar_eq_kstar]
      exact Or.inr (Language.append_mem_mul hw htail')
    · rintro ⟨hmem, hadv⟩
      rw [← Language.one_add_self_mul_kstar_eq_kstar] at hmem
      rcases hmem with hnil | hmul
      · exact absurd hnil hempty
      · obtain ⟨word, hw, tail, htail', htail⟩ := Language.mem_mul.mp hmul
        exact ⟨((), _), (hitem s hs () _).mpr ⟨word, hw, ⟨tail, htail⟩, rfl⟩,
          (hstep word hw tail htail).mpr ⟨htail', hadv⟩⟩

end PrefixGrammar

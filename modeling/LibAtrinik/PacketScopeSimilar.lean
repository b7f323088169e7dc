import LibAtrinik.PacketScopeBounds
import LibAtrinik.PacketScopeRun

namespace LibAtrinik.Packet

section Definitions

/-- How far the readers of a scope have read, of which the first one started at `start`. -/
def Notes.reached (n : Notes) (start : ℕ) : ℕ := n.reads.foldl max start

/-- Nothing is read before the data is known, and without an error nothing beyond its end. -/
def Notes.Within (n : Notes) : Prop :=
  (n.buffer = none → n.reads = []) ∧ (n.errors = [] → ∀ b ∈ n.buffer, n.reached b.2.2 ≤ b.2.1)

/-- Readers stay in their data, and that is the data of their scope. -/
structure Watch.Sound (w : Watch) : Prop where
  small : ∀ i ∈ w.stack, i < w.count
  inside : ∀ r b, w.readers r = some b → b.reader.Inside
  bound : ∀ r b, w.readers r = some b → ∀ i ∈ b.scope, i < w.count ∧
    (b.reader.error ≠ .none → (w.notes i).errors ≠ []) ∧
    ∃ c, (w.notes i).buffer = some c ∧ c.2.1 = b.reader.data.length
  within : ∀ i, (w.notes i).Within

/-- Two scopes that report the same, also after the same has been done in them. -/
structure Similar (n n' : Notes) : Prop where
  first : n.errors.head? = n'.errors.head?
  reached : n.errors = [] → ∃ address len start start',
    n.buffer = some (address, len, start) ∧ n'.buffer = some (address, len, start') ∧
    n.reached start ≤ len ∧ n'.reached start' ≤ len ∧
    (n.reached start = len ↔ n'.reached start' = len)

/-- Readers may be bound to a scope or not when it has an error already. -/
def Loose (i : ℕ) (n : Notes) (k k' : Option ℕ) : Prop :=
  k = k' ∨ (n.errors ≠ [] ∧ (k = none ∨ k = some i) ∧ (k' = none ∨ k' = some i))

/-- Only the scope `i` differs. -/
structure Alike (i : ℕ) (w w' : Watch) : Prop where
  small : i < w.count
  count : w.count = w'.count
  stack : w.stack = w'.stack
  notes : ∀ j, j ≠ i → w.notes j = w'.notes j
  similar : Similar (w.notes i) (w'.notes i)
  readers : ∀ r, (w.readers r = none ∧ w'.readers r = none) ∨
    ∃ reader address k k', w.readers r = some ⟨reader, address, k⟩ ∧
      w'.readers r = some ⟨reader, address, k'⟩ ∧ Loose i (w.notes i) k k'

end Definitions

section Noting

variable {n n' : Notes}

theorem reached_append (n : Notes) (pos start : ℕ) :
    Notes.reached { n with reads := n.reads ++ [pos] } start = max (n.reached start) pos := by
  change (n.reads ++ [pos]).foldl max start = _
  rw [List.foldl_append]
  rfl

theorem addError_head (n : Notes) (error : PacketError) (h : n.errors ≠ []) :
    (n.addError error).errors.head? = n.errors.head? := by
  unfold Notes.addError
  split_ifs
  · rfl
  · exact List.head?_append_of_ne_nil _ h

theorem observe_head (n : Notes) (reader reader' : PacketReader) (h : n.errors ≠ []) :
    (n.observe reader reader').errors.head? = n.errors.head? := by
  have hsame : (if reader'.pos = reader.pos then n
      else { n with reads := n.reads ++ [reader'.pos] }).errors = n.errors := by
    split_ifs <;> rfl
  unfold Notes.observe
  dsimp only
  by_cases herror : reader.error = .none
  · rw [if_pos herror, addError_head _ _ (by rw [hsame]; exact h), hsame]
  · rw [if_neg herror, hsame]

theorem bind_within (h : n.Within) (address : Option ℕ) (len pos : ℕ) (hpos : pos ≤ len) :
    (n.bind address len pos).Within := by
  unfold Notes.bind
  cases hbuffer : n.buffer with
  | none =>
    refine ⟨fun hnone => (by cases hnone), fun _ b hb => ?_⟩
    rw [← Option.some.inj hb]
    change n.reads.foldl max pos ≤ len
    rw [h.1 hbuffer]
    exact hpos
  | some b => exact h

theorem addError_within (h : n.Within) (error : PacketError) : (n.addError error).Within := by
  unfold Notes.addError
  split_ifs
  · exact h
  · refine ⟨h.1, fun hnil => absurd hnil ?_⟩
    exact List.append_ne_nil_of_right_ne_nil _ (List.cons_ne_nil _ _)

/-- A reader that is bound to a scope and stays in its data keeps the scope in its data. -/
theorem observe_within (h : n.Within) (reader reader' : PacketReader)
    (hbuffer : ∃ c, n.buffer = some c ∧ reader'.pos ≤ c.2.1) :
    (n.observe reader reader').Within := by
  obtain ⟨c, hc, hpos⟩ := hbuffer
  have hread : (if reader'.pos = reader.pos then n
      else { n with reads := n.reads ++ [reader'.pos] }).Within := by
    split_ifs
    · exact h
    · refine ⟨fun hnone => (by rw [hc] at hnone; cases hnone), fun hnil b hb => ?_⟩
      have hb : b ∈ n.buffer := hb
      rw [reached_append]
      have hold := h.2 hnil b hb
      rw [hc] at hb
      rw [← Option.some.inj hb] at hold ⊢
      exact max_le hold hpos
  unfold Notes.observe
  dsimp only
  by_cases herror : reader.error = .none
  · rw [if_pos herror]
    exact addError_within hread _
  · rw [if_neg herror]
    exact hread

/-- Scopes with the same first error are similar. -/
theorem Similar.of_errors (hne : n.errors ≠ []) (hfirst : n.errors.head? = n'.errors.head?) :
    Similar n n' :=
  ⟨hfirst, fun hnil => absurd hnil hne⟩

theorem Similar.errors_nil (h : Similar n n') : n.errors = [] ↔ n'.errors = [] := by
  rw [← List.head?_eq_none_iff, h.first, List.head?_eq_none_iff]

theorem Similar.addError (h : Similar n n') (error : PacketError) :
    Similar (n.addError error) (n'.addError error) := by
  unfold Notes.addError
  split_ifs
  · exact h
  · apply Similar.of_errors
    · exact List.append_ne_nil_of_right_ne_nil _ (List.cons_ne_nil _ _)
    · change (n.errors ++ [error]).head? = (n'.errors ++ [error]).head?
      rw [List.head?_append, List.head?_append, h.first]

theorem Similar.read (h : Similar n n') (pos : ℕ)
    (hpos : n.errors = [] → ∀ c ∈ n.buffer, pos ≤ c.2.1) :
    Similar { n with reads := n.reads ++ [pos] } { n' with reads := n'.reads ++ [pos] } := by
  refine ⟨h.first, fun hnil => ?_⟩
  obtain ⟨address, len, start, start', hb, hb', hle, hle', hiff⟩ := h.reached hnil
  have hlen : pos ≤ len := hpos hnil _ hb
  refine ⟨address, len, start, start', hb, hb', ?_⟩
  rw [reached_append, reached_append]
  omega

theorem Similar.observe (h : Similar n n') (reader reader' : PacketReader)
    (hpos : n.errors = [] → ∀ c ∈ n.buffer, reader'.pos ≤ c.2.1) :
    Similar (n.observe reader reader') (n'.observe reader reader') := by
  have hread : Similar (if reader'.pos = reader.pos then n
      else { n with reads := n.reads ++ [reader'.pos] }) (if reader'.pos = reader.pos then n'
      else { n' with reads := n'.reads ++ [reader'.pos] }) := by
    split_ifs
    · exact h
    · exact h.read reader'.pos hpos
  unfold Notes.observe
  dsimp only
  by_cases herror : reader.error = .none
  · rw [if_pos herror, if_pos herror]
    exact hread.addError _
  · rw [if_neg herror, if_neg herror]
    exact hread

theorem Similar.verdict (h : Similar n n') : n.verdict = n'.verdict := by
  unfold Notes.verdict
  have hfirst := h.first
  cases herrors : n.errors with
  | cons error errors =>
    rw [herrors] at hfirst
    cases herrors' : n'.errors with
    | nil =>
      rw [herrors'] at hfirst
      cases hfirst
    | cons error' errors' =>
      rw [herrors'] at hfirst
      exact Option.some.inj hfirst
  | nil =>
    rw [h.errors_nil.mp herrors]
    obtain ⟨address, len, start, start', hb, hb', _, _, hiff⟩ := h.reached herrors
    rw [hb, hb']
    change (if n.reached start = len then _ else _) = if n'.reached start' = len then _ else _
    by_cases hend : n.reached start = len
    · rw [if_pos hend, if_pos (hiff.mp hend)]
    · rw [if_neg hend, if_neg fun hend' => hend (hiff.mpr hend')]

end Noting

section Invariant

variable {w : Watch}

theorem note_notes (w : Watch) (k : Option ℕ) (f : Notes → Notes) (j : ℕ) :
    (w.note k f).notes j = if k = some j then f (w.notes j) else w.notes j := by
  cases k with
  | none => rfl
  | some k =>
    change Function.update w.notes k (f (w.notes k)) j = _
    by_cases hj : j = k
    · rw [hj, Function.update_self, if_pos rfl]
    · rw [Function.update_of_ne hj, if_neg fun heq => hj (Option.some.inj heq).symm]

theorem note_rest (w : Watch) (k : Option ℕ) (f : Notes → Notes) :
    (w.note k f).count = w.count ∧ (w.note k f).stack = w.stack ∧
      (w.note k f).readers = w.readers := by
  cases k <;> exact ⟨rfl, rfl, rfl⟩

theorem Watch.Sound.note (h : w.Sound) (k : Option ℕ) (f : Notes → Notes)
    (hwithin : ∀ i ∈ k, (f (w.notes i)).Within)
    (hbuffer : ∀ n c, n.buffer = some c → (f n).buffer = some c)
    (herrors : ∀ n, n.errors ≠ [] → (f n).errors ≠ []) : (w.note k f).Sound := by
  obtain ⟨hcount, hstack, hreaders⟩ := note_rest w k f
  refine ⟨?_, ?_, ?_, ?_⟩
  · rw [hcount, hstack]
    exact h.small
  · rw [hreaders]
    exact h.inside
  · intro r b hr i hi
    rw [hreaders] at hr
    obtain ⟨hlt, hknows, c, hc, hlen⟩ := h.bound r b hr i hi
    rw [hcount, note_notes]
    refine ⟨hlt, ?_, c, ?_, hlen⟩
    · intro herror
      split_ifs
      · exact herrors _ (hknows herror)
      · exact hknows herror
    · split_ifs
      · exact hbuffer _ c hc
      · exact hc
  · intro i
    rw [note_notes]
    split_ifs with hi
    · exact hwithin i hi
    · exact h.within i

theorem Watch.Sound.setReader (h : w.Sound) (r : ℕ) (b : BoundReader) (hinside : b.reader.Inside)
    (hbound : ∀ i ∈ b.scope, i < w.count ∧ (b.reader.error ≠ .none → (w.notes i).errors ≠ []) ∧
      ∃ c, (w.notes i).buffer = some c ∧ c.2.1 = b.reader.data.length) :
    Watch.Sound { w with readers := Function.update w.readers r (some b) } := by
  refine ⟨h.small, ?_, ?_, h.within⟩
  · intro r' b' hr'
    change Function.update w.readers r (some b) r' = some b' at hr'
    by_cases heq : r' = r
    · rw [heq, Function.update_self] at hr'
      rw [← Option.some.inj hr']
      exact hinside
    · rw [Function.update_of_ne heq] at hr'
      exact h.inside r' b' hr'
  · intro r' b' hr'
    change Function.update w.readers r (some b) r' = some b' at hr'
    by_cases heq : r' = r
    · rw [heq, Function.update_self] at hr'
      rw [← Option.some.inj hr']
      exact hbound
    · rw [Function.update_of_ne heq] at hr'
      exact h.bound r' b' hr'

theorem sound_init : Watch.init.Sound :=
  ⟨fun _ hi => absurd hi List.not_mem_nil, fun _ _ hr => (by cases hr), fun _ _ hr => (by cases hr),
    fun _ => ⟨fun _ => rfl, fun _ _ hb => (by cases hb)⟩⟩

/-- What is known of a reader that has just been made. -/
theorem plainInitAt_spec (address : Option ℕ) (data : List UInt8) (pos : ℕ) :
    (plainInitAt address data pos).data = data ∧ (plainInitAt address data pos).Inside ∧
      ((plainInitAt address data pos).error = .none → pos ≤ data.length) := by
  unfold plainInitAt scopedInitAt
  by_cases hinvalid : invalidAt address data pos
  · rw [if_pos hinvalid]
    exact ⟨rfl, Nat.zero_le _, fun herror => (by cases herror)⟩
  · rw [if_neg hinvalid]
    have hpos : pos ≤ data.length := Nat.le_of_not_lt fun hlong => hinvalid (Or.inr hlong)
    exact ⟨rfl, hpos, fun _ => hpos⟩

/-- What a new reader does with the notes of its scope. -/
def Notes.made (n : Notes) (address : Option ℕ) (data : List UInt8) (pos : ℕ) : Notes :=
  (n.bind address data.length pos).addError (plainInitAt address data pos).error

theorem made_within {n : Notes} (h : n.Within) (address : Option ℕ) (data : List UInt8) (pos : ℕ) :
    (n.made address data pos).Within := by
  obtain ⟨_, _, hpos⟩ := plainInitAt_spec address data pos
  by_cases herror : (plainInitAt address data pos).error = .none
  · exact addError_within (bind_within h address data.length pos (hpos herror)) _
  · refine ⟨?_, fun hnil => absurd hnil (addError_errors _ _ (Or.inr herror))⟩
    intro hnone
    unfold Notes.made at hnone
    rw [addError_buffer] at hnone
    exact absurd hnone (bind_buffer n address data.length pos).1

theorem made_buffer {n : Notes} (address : Option ℕ) (data : List UInt8) (pos : ℕ)
    (hbinds : n.binds address data.length) :
    ∃ c, (n.made address data pos).buffer = some c ∧ c.1 = address ∧ c.2.1 = data.length := by
  unfold Notes.made
  rw [addError_buffer]
  unfold Notes.bind
  cases hbuffer : n.buffer with
  | none => exact ⟨_, rfl, rfl, rfl⟩
  | some c => exact ⟨c, hbuffer, hbinds c hbuffer⟩

theorem made_of_buffer {n : Notes} {c : Option ℕ × ℕ × ℕ} (hc : n.buffer = some c)
    (address : Option ℕ) (data : List UInt8) (pos : ℕ) :
    n.made address data pos = n.addError (plainInitAt address data pos).error := by
  unfold Notes.made Notes.bind
  rw [hc]

theorem made_errors {n : Notes} (address : Option ℕ) (data : List UInt8) (pos : ℕ)
    (h : n.errors ≠ []) : (n.made address data pos).errors.head? = n.errors.head? := by
  have hbind := (bind_buffer n address data.length pos).2
  unfold Notes.made
  rw [addError_head _ _ (by rw [hbind]; exact h), hbind]

theorem ne_nil_of_head {α : Type} {l l' : List α} (h : l.head? = l'.head?) (hne : l' ≠ []) : l ≠ [] := by
  intro hnil
  rw [hnil] at h
  exact hne (List.head?_eq_none_iff.mp h.symm)

theorem init_sound (h : w.Sound) (r : ℕ) (address : Option ℕ) (data : List UInt8) (pos : ℕ) :
    Watch.Sound { w.note (w.bound address data.length) fun n => n.made address data pos with
      readers := Function.update (w.note (w.bound address data.length)
        fun n => n.made address data pos).readers r
        (some ⟨plainInitAt address data pos, address, w.bound address data.length⟩) } := by
  obtain ⟨hdata, hinside, _⟩ := plainInitAt_spec address data pos
  obtain ⟨hcount, _, _⟩ := note_rest w (w.bound address data.length) fun n => n.made address data pos
  have hnoted := h.note (w.bound address data.length) (fun n => n.made address data pos)
    (fun i _ => made_within (h.within i) address data pos)
    (fun n c hc => by rw [made_of_buffer hc, addError_buffer]; exact hc)
    fun n hn => ne_nil_of_head (made_errors address data pos hn) hn
  apply hnoted.setReader r _ hinside
  intro i hi
  have hi : w.bound address data.length = some i := hi
  obtain ⟨hmem, _, hbinds⟩ := bound_spec hi
  obtain ⟨c, hc, _, hlen⟩ := made_buffer address data pos hbinds
  rw [hcount, note_notes, if_pos hi]
  refine ⟨h.small i hmem, fun herror => addError_errors _ _ (Or.inr herror), c, hc, ?_⟩
  rw [hdata]
  exact hlen

/-- An operation stays in the data of the scopes of its reader. -/
theorem operation_reaches (h : w.Sound) {r : ℕ} {b : BoundReader} (hr : w.readers r = some b)
    (operation : Operation) {i : ℕ} (hi : b.scope = some i) :
    ∃ c, (w.notes i).buffer = some c ∧ (operation.run b.reader).2.pos ≤ c.2.1 := by
  obtain ⟨_, _, c, hc, hlen⟩ := h.bound r b hr i hi
  refine ⟨c, hc, ?_⟩
  have hinside := operation_inside (r := (b.reader, none)) (h.inside r b hr) operation
  have hdata := (follows_operation operation).data (b.reader, none)
  rw [hlen, ← hdata]
  exact hinside

theorem operate_sound (h : w.Sound) {r : ℕ} {b : BoundReader} (hr : w.readers r = some b)
    (operation : Operation) :
    Watch.Sound { w.note b.scope fun n => n.observe b.reader (operation.run b.reader).2 with
      readers := Function.update (w.note b.scope
        fun n => n.observe b.reader (operation.run b.reader).2).readers r
        (some { b with reader := (operation.run b.reader).2 }) } := by
  obtain ⟨hcount, _, _⟩ := note_rest w b.scope fun n =>
    n.observe b.reader (operation.run b.reader).2
  have hinside := operation_inside (r := (b.reader, none)) (h.inside r b hr) operation
  have hdata := (follows_operation operation).data (b.reader, none)
  have hnoted := h.note b.scope (fun n => n.observe b.reader (operation.run b.reader).2)
    (fun i hi => observe_within (h.within i) _ _ (operation_reaches h hr operation hi))
    (fun n c hc => by rw [observe_buffer]; exact hc)
    fun n hn => observe_errors n _ _ (Or.inl hn)
  apply hnoted.setReader r _ hinside
  intro i hi
  have hi : b.scope = some i := hi
  obtain ⟨hlt, hknows, c, hc, hlen⟩ := h.bound r b hr i hi
  rw [hcount, note_notes, if_pos hi, observe_buffer]
  refine ⟨hlt, fun herror => observe_errors _ _ _ ?_, c, hc, hlen.trans (congrArg _ hdata.symm)⟩
  by_cases hold : b.reader.error = .none
  · exact Or.inr ⟨hold, herror⟩
  · exact Or.inl (hknows hold)

/-- Every call keeps the readers in their data. -/
theorem call_sound (h : w.Sound) {call : Call} {w₁ : Watch} {answer : Answer}
    (hcall : w.call call = some (w₁, answer)) : w₁.Sound := by
  cases call with
  | scopeBegin =>
    cases hcall
    refine ⟨?_, h.inside, ?_, ?_⟩
    · intro i hi
      rcases List.mem_cons.mp hi with heq | hin
      · rw [heq]
        exact Nat.lt_succ_self _
      · exact Nat.lt_succ_of_lt (h.small i hin)
    · intro r b hr i hi
      obtain ⟨hlt, hrest⟩ := h.bound r b hr i hi
      refine ⟨Nat.lt_succ_of_lt hlt, ?_⟩
      dsimp only
      rw [Function.update_of_ne (Nat.ne_of_lt hlt)]
      exact hrest
    · intro i
      dsimp only
      by_cases hi : i = w.count
      · rw [hi, Function.update_self]
        exact ⟨fun _ => rfl, fun _ _ hb => (by cases hb)⟩
      · rw [Function.update_of_ne hi]
        exact h.within i
  | init r address data pos =>
    cases hcall
    exact init_sound h r address data pos
  | operate r operation =>
    unfold Watch.call at hcall
    dsimp only at hcall
    cases hr : w.readers r with
    | none =>
      rw [hr] at hcall
      cases hcall
    | some b =>
      rw [hr] at hcall
      dsimp only at hcall
      by_cases hnone : operation = .setError .none
      · rw [if_pos hnone] at hcall
        cases hcall
      · rw [if_neg hnone] at hcall
        cases hcall
        exact operate_sound h hr operation
  | scopeFinish =>
    unfold Watch.call at hcall
    dsimp only at hcall
    cases hstack : w.stack with
    | nil =>
      rw [hstack] at hcall
      cases hcall
    | cons i rest =>
      rw [hstack] at hcall
      cases hcall
      have hnoted := h.note rest.head? (fun n => n.addError (w.notes i).verdict)
        (fun j _ => addError_within (h.within j) _)
        (fun n c hc => by rw [addError_buffer]; exact hc)
        fun n hn => addError_errors n _ (Or.inl hn)
      obtain ⟨hcount, _, _⟩ := note_rest w rest.head? fun n => n.addError (w.notes i).verdict
      refine ⟨?_, hnoted.inside, hnoted.bound, hnoted.within⟩
      intro j hj
      change j < (w.note rest.head? fun n => n.addError (w.notes i).verdict).count
      rw [hcount]
      exact h.small j (by rw [hstack]; exact List.mem_cons_of_mem i hj)

theorem run_sound (calls : List Call) (h : w.Sound) {w₁ : Watch} {answers : List Answer}
    (hrun : w.run calls = some (w₁, answers)) : w₁.Sound := by
  induction calls generalizing w w₁ answers with
  | nil =>
    cases hrun
    exact h
  | cons call calls ih =>
    unfold Watch.run at hrun
    obtain ⟨⟨w₂, answer⟩, hcall, hrest⟩ := Option.bind_eq_some_iff.mp hrun
    obtain ⟨⟨w₃, answers'⟩, hrun', heq⟩ := Option.bind_eq_some_iff.mp hrest
    cases heq
    exact ih (call_sound h hcall) hrun'

end Invariant

section Simulation

variable {i : ℕ} {w w' : Watch}

theorem Loose.other {n : Notes} {k k' : Option ℕ} (h : Loose i n k k') {j : ℕ} (hj : j ≠ i) :
    k = some j ↔ k' = some j := by
  rcases h with heq | ⟨_, hk, hk'⟩
  · rw [heq]
  · have hne : ∀ k : Option ℕ, k = none ∨ k = some i → k ≠ some j := by
      intro k hk hkj
      rw [hkj] at hk
      rcases hk with hnone | hsome
      · cases hnone
      · exact hj (Option.some.inj hsome)
    exact ⟨fun heq => absurd heq (hne k hk), fun heq => absurd heq (hne k' hk')⟩

theorem Loose.same {n : Notes} {k k' : Option ℕ} (h : Loose i n k k') (hnil : n.errors = []) :
    k = k' :=
  h.resolve_right fun hright => hright.1 hnil

/-- The same is noted in both, in scopes that may differ when `i` has an error. -/
theorem Alike.note (h : Alike i w w') {k k' : Option ℕ} (hk : Loose i (w.notes i) k k')
    (f : Notes → Notes) (hhead : ∀ n, n.errors ≠ [] → (f n).errors.head? = n.errors.head?)
    (hsimilar : (w.notes i).errors = [] → k = some i →
      Similar (f (w.notes i)) (f (w'.notes i))) : Alike i (w.note k f) (w'.note k' f) := by
  obtain ⟨hcount, hstack, hreaders⟩ := note_rest w k f
  obtain ⟨hcount', hstack', hreaders'⟩ := note_rest w' k' f
  have hkeep : ∀ (w : Watch) (k : Option ℕ), (w.notes i).errors ≠ [] →
      ((w.note k f).notes i).errors.head? = (w.notes i).errors.head? := by
    intro w k hne
    rw [note_notes]
    split_ifs
    · exact hhead _ hne
    · rfl
  refine ⟨?_, ?_, ?_, ?_, ?_, ?_⟩
  · rw [hcount]
    exact h.small
  · rw [hcount, hcount', h.count]
  · rw [hstack, hstack', h.stack]
  · intro j hj
    rw [note_notes, note_notes, h.notes j hj]
    by_cases hkj : k = some j
    · rw [if_pos hkj, if_pos ((hk.other hj).mp hkj)]
    · rw [if_neg hkj, if_neg fun hkj' => hkj ((hk.other hj).mpr hkj')]
  · by_cases hnil : (w.notes i).errors = []
    · rw [← hk.same hnil, note_notes, note_notes]
      by_cases hki : k = some i
      · rw [if_pos hki, if_pos hki]
        exact hsimilar hnil hki
      · rw [if_neg hki, if_neg hki]
        exact h.similar
    · have hnil' : (w'.notes i).errors ≠ [] := fun hn => hnil (h.similar.errors_nil.mpr hn)
      apply Similar.of_errors
      · exact ne_nil_of_head (hkeep w k hnil) hnil
      · rw [hkeep w k hnil, hkeep w' k' hnil', h.similar.first]
  · intro r
    rw [hreaders, hreaders']
    rcases h.readers r with hnone | ⟨reader, address, k₁, k₁', hr, hr', hloose⟩
    · exact Or.inl hnone
    · refine Or.inr ⟨reader, address, k₁, k₁', hr, hr', ?_⟩
      rcases hloose with heq | ⟨hne, hrest⟩
      · exact Or.inl heq
      · exact Or.inr ⟨ne_nil_of_head (hkeep w k hne) hne, hrest⟩

theorem Alike.setReader (h : Alike i w w') (r : ℕ) (reader : PacketReader) (address : Option ℕ)
    {k k' : Option ℕ} (hk : Loose i (w.notes i) k k') :
    Alike i { w with readers := Function.update w.readers r (some ⟨reader, address, k⟩) }
      { w' with readers := Function.update w'.readers r (some ⟨reader, address, k'⟩) } := by
  refine ⟨h.small, h.count, h.stack, h.notes, h.similar, ?_⟩
  intro r'
  dsimp only
  by_cases heq : r' = r
  · rw [heq, Function.update_self, Function.update_self]
    exact Or.inr ⟨reader, address, k, k', rfl, rfl, hk⟩
  · rw [Function.update_of_ne heq, Function.update_of_ne heq]
    exact h.readers r'

/-- A reader is bound to the same scope in both, unless that has an error. -/
theorem Alike.bound (h : Alike i w w') (address : Option ℕ) (len : ℕ) :
    Loose i (w.notes i) (w.bound address len) (w'.bound address len) := by
  unfold Watch.bound
  rw [← h.stack]
  cases w.stack with
  | nil => exact Or.inl rfl
  | cons j rest =>
    dsimp only
    by_cases hj : j = i
    · rw [hj]
      by_cases hnil : (w.notes i).errors = []
      · obtain ⟨address', len', start, start', hb, hb', _⟩ := h.similar.reached hnil
        have hbinds : ∀ {n : Notes} {start : ℕ}, n.buffer = some (address', len', start) →
            (n.binds address len ↔ address' = address ∧ len' = len) := by
          intro n start hb
          unfold Notes.binds
          rw [hb]
          exact ⟨fun hall => hall _ rfl, fun heq b hb => Option.some.inj hb ▸ heq⟩
        left
        simp only [hbinds hb, hbinds hb']
      · right
        have hcase : ∀ (p : Prop) [Decidable p], (if p then some i else none) = none ∨
            (if p then some i else none) = some i := by
          intro p _
          split_ifs
          · exact Or.inr rfl
          · exact Or.inl rfl
        exact ⟨hnil, hcase _, hcase _⟩
    · rw [h.notes j hj]
      exact Or.inl rfl

theorem scopeBegin_alike (h : Alike i w w') :
    ∃ w₁ w₁' answer, w.call .scopeBegin = some (w₁, answer) ∧
      w'.call .scopeBegin = some (w₁', answer) ∧ Alike i w₁ w₁' := by
  refine ⟨_, _, _, rfl, rfl, Nat.lt_succ_of_lt h.small, congrArg (·+1) h.count, ?_, ?_, ?_, ?_⟩
  · change w.count :: w.stack = w'.count :: w'.stack
    rw [h.count, h.stack]
  · intro j hj
    dsimp only
    rw [← h.count]
    by_cases heq : j = w.count
    · rw [heq, Function.update_self, Function.update_self]
    · rw [Function.update_of_ne heq, Function.update_of_ne heq, h.notes j hj]
  · dsimp only
    rw [← h.count, Function.update_of_ne (Nat.ne_of_lt h.small),
      Function.update_of_ne (Nat.ne_of_lt h.small)]
    exact h.similar
  · dsimp only
    rw [Function.update_of_ne (Nat.ne_of_lt h.small)]
    exact h.readers

theorem init_alike (h : Alike i w w') (r : ℕ) (address : Option ℕ) (data : List UInt8) (pos : ℕ) :
    ∃ w₁ w₁' answer, w.call (.init r address data pos) = some (w₁, answer) ∧
      w'.call (.init r address data pos) = some (w₁', answer) ∧ Alike i w₁ w₁' := by
  refine ⟨_, _, _, rfl, rfl, ?_⟩
  have hloose := h.bound address data.length
  have hnoted := h.note hloose (fun n => n.made address data pos)
    (fun n hn => made_errors address data pos hn) (by
    intro hnil _
    obtain ⟨_, _, _, _, hb, hb', _⟩ := h.similar.reached hnil
    rw [made_of_buffer hb, made_of_buffer hb']
    exact h.similar.addError _)
  apply hnoted.setReader
  rw [note_notes]
  rcases hloose with heq | ⟨hne, hrest⟩
  · exact Or.inl heq
  · refine Or.inr ⟨?_, hrest⟩
    split_ifs
    · exact ne_nil_of_head (made_errors address data pos hne) hne
    · exact hne

theorem operate_alike (h : Alike i w w') (hsound : w.Sound) (r : ℕ) (operation : Operation) :
    (w.call (.operate r operation) = none ∧ w'.call (.operate r operation) = none) ∨
    ∃ w₁ w₁' answer, w.call (.operate r operation) = some (w₁, answer) ∧
      w'.call (.operate r operation) = some (w₁', answer) ∧ Alike i w₁ w₁' := by
  unfold Watch.call
  dsimp only
  rcases h.readers r with ⟨hnone, hnone'⟩ | ⟨reader, address, k, k', hr, hr', hloose⟩
  · rw [hnone, hnone']
    exact Or.inl ⟨rfl, rfl⟩
  rw [hr, hr']
  dsimp only
  by_cases hset : operation = .setError .none
  · rw [if_pos hset, if_pos hset]
    exact Or.inl ⟨rfl, rfl⟩
  rw [if_neg hset, if_neg hset]
  refine Or.inr ⟨_, _, _, rfl, rfl, ?_⟩
  have hnoted := h.note hloose (fun n => n.observe reader (operation.run reader).2)
    (fun n hn => observe_head n _ _ hn) (by
    intro _ hk
    apply h.similar.observe
    intro _ c hc
    obtain ⟨c', hc', hpos⟩ := operation_reaches hsound hr operation hk
    rw [hc'] at hc
    rw [← Option.some.inj hc]
    exact hpos)
  apply hnoted.setReader
  rw [note_notes]
  rcases hloose with heq | ⟨hne, hrest⟩
  · exact Or.inl heq
  · refine Or.inr ⟨?_, hrest⟩
    split_ifs
    · exact ne_nil_of_head (observe_head _ _ _ hne) hne
    · exact hne

theorem Alike.verdict (h : Alike i w w') (j : ℕ) : (w.notes j).verdict = (w'.notes j).verdict := by
  by_cases hj : j = i
  · rw [hj]
    exact h.similar.verdict
  · rw [h.notes j hj]

theorem scopeFinish_alike (h : Alike i w w') :
    (w.call .scopeFinish = none ∧ w'.call .scopeFinish = none) ∨
    ∃ w₁ w₁' answer, w.call .scopeFinish = some (w₁, answer) ∧
      w'.call .scopeFinish = some (w₁', answer) ∧ Alike i w₁ w₁' := by
  unfold Watch.call
  dsimp only
  rw [← h.stack]
  cases w.stack with
  | nil => exact Or.inl ⟨rfl, rfl⟩
  | cons j rest =>
    dsimp only
    rw [← h.verdict j]
    refine Or.inr ⟨_, _, _, rfl, rfl, ?_⟩
    have hnoted := h.note (k := rest.head?) (Or.inl rfl) (fun n => n.addError (w.notes j).verdict)
      (fun n hn => addError_head n _ hn) fun _ _ => h.similar.addError _
    exact ⟨hnoted.small, hnoted.count, rfl, hnoted.notes, hnoted.similar, hnoted.readers⟩

/-- Every call gives the same answer in both. -/
theorem call_alike (h : Alike i w w') (hsound : w.Sound) (call : Call) :
    (w.call call = none ∧ w'.call call = none) ∨
    ∃ w₁ w₁' answer, w.call call = some (w₁, answer) ∧ w'.call call = some (w₁', answer) ∧
      Alike i w₁ w₁' := by
  cases call with
  | scopeBegin => exact Or.inr (scopeBegin_alike h)
  | init r address data pos => exact Or.inr (init_alike h r address data pos)
  | operate r operation => exact operate_alike h hsound r operation
  | scopeFinish => exact scopeFinish_alike h

theorem run_alike (calls : List Call) (h : Alike i w w') (hsound : w.Sound) :
    (w.run calls).map Prod.snd = (w'.run calls).map Prod.snd := by
  induction calls generalizing w w' with
  | nil => rfl
  | cons call calls ih =>
    unfold Watch.run
    rcases call_alike h hsound call with ⟨hnone, hnone'⟩ | ⟨w₁, w₁', answer, hcall, hcall', h₁⟩
    · rw [hnone, hnone']
    · rw [hcall, hcall']
      have hrest := ih h₁ (call_sound hsound hcall)
      change ((w₁.run calls).bind fun result => some (result.1, answer :: result.2)).map Prod.snd =
        ((w₁'.run calls).bind fun result => some (result.1, answer :: result.2)).map Prod.snd
      rw [Option.map_bind, Option.map_bind]
      change ((w₁.run calls).bind fun result => some (answer :: result.2)) =
        (w₁'.run calls).bind fun result => some (answer :: result.2)
      have hmap : ∀ o : Option (Watch × List Answer),
          (o.bind fun result => some (answer :: result.2)) =
            (o.map Prod.snd).map fun answers => answer :: answers := by
        intro o
        cases o <;> rfl
      rw [hmap, hmap, hrest]

end Simulation

end LibAtrinik.Packet

import LibAtrinik.MapScopes

namespace LibAtrinik.MapProtocol

open Packet

/-- Two scopes report the same when one more reader is made. -/
def SameWithReader (n n' : Notes) : Prop :=
  ∀ (address : Option ℕ) (data : List UInt8) (pos : ℕ),
    (if n.binds address data.length then (n.made address data pos).verdict else n.verdict) =
      if n'.binds address data.length then (n'.made address data pos).verdict else n'.verdict

section Notes

variable {n : Notes} {address : Option ℕ} {data : List UInt8} {pos : ℕ}
  {mapWidthLimit mapHeightLimit : ℤ}

theorem observe_first (n : Notes) (reader reader' : PacketReader) (herror : reader.error = .none)
    (hnil : n.errors = []) (hnew : reader'.error ≠ .none) :
    (n.observe reader reader').errors = [reader'.error] := by
  have hsame : (if reader'.pos = reader.pos then n
      else { n with reads := n.reads ++ [reader'.pos] }).errors = n.errors := by
    split_ifs <;> rfl
  unfold Notes.observe Notes.addError
  dsimp only
  rw [if_pos herror, if_neg hnew]
  dsimp only
  rw [hsame, hnil]
  rfl

/-- A reader without an error that has gone forward. -/
theorem observe_read (n : Notes) (reader reader' : PacketReader) (hnew : reader'.error = .none)
    (hpos : reader'.pos ≠ reader.pos) :
    n.observe reader reader' = { n with reads := n.reads ++ [reader'.pos] } := by
  unfold Notes.observe Notes.addError
  dsimp only
  rw [if_neg hpos, if_pos hnew, ite_self]

theorem verdict_first {error : PacketError} {errors : List PacketError}
    (h : n.errors = error :: errors) : n.verdict = error := by
  unfold Notes.verdict
  rw [h]

theorem verdict_unbound (hnil : n.errors = []) (hbuffer : n.buffer = none) : n.verdict = .none := by
  unfold Notes.verdict
  rw [hnil, hbuffer]

theorem verdict_bound (hnil : n.errors = []) {address : Option ℕ} {len start : ℕ}
    (hbuffer : n.buffer = some (address, len, start)) :
    n.verdict = if n.reached start = len then .none else .trailingData := by
  unfold Notes.verdict
  rw [hnil, hbuffer]
  rfl

/-- A scope that is not disturbed reports the same. -/
theorem similar_validated (hwithin : n.Within) (hpos : pos ≤ data.length)
    (h : n.errors ≠ [] ∨ ∃ start stop, n.buffer = some (address, data.length, start) ∧
      messageStop data pos mapWidthLimit mapHeightLimit = some stop ∧
      (stop = data.length → n.reached start = data.length)) :
    Similar n (noteValidated n address data pos mapWidthLimit mapHeightLimit) := by
  have hbind := (bind_buffer n address data.length pos).2
  by_cases hne : n.errors ≠ []
  · apply Similar.of_errors hne
    unfold noteValidated
    rw [observe_head _ _ _ (by rw [hbind]; exact hne), hbind]
  have hnil := not_not.mp hne
  obtain ⟨start, stop, hbuffer, hstop, hend⟩ := h.resolve_left hne
  have hlast := lastReader_stops mapWidthLimit mapHeightLimit hpos
  rw [hstop] at hlast
  obtain ⟨hgood, hlastPos⟩ := hlast
  have hforward := messageStop_forward hstop
  have hinside := lastReader_inside mapWidthLimit mapHeightLimit hpos
  rw [hlastPos] at hinside
  have hsame : n.bind address data.length pos = n := by
    unfold Notes.bind
    rw [hbuffer]
  have hread := observe_read n (initReader data pos) _ hgood
    (by rw [hlastPos]; exact Nat.ne_of_gt hforward)
  unfold noteValidated
  rw [hsame, hread, hlastPos]
  refine ⟨rfl, fun _ => ⟨address, data.length, start, start, hbuffer, hbuffer, ?_⟩⟩
  have hold : n.reached start ≤ data.length := hwithin.2 hnil _ hbuffer
  rw [reached_append]
  refine ⟨hold, max_le hold hinside, ?_⟩
  constructor
  · intro heq
    rw [heq]
    exact Nat.max_eq_left hinside
  · intro hmax
    rcases Nat.le_or_ge stop (n.reached start) with hle | hge
    · rw [Nat.max_eq_left hle] at hmax
      exact hmax
    · rw [Nat.max_eq_right hge] at hmax
      exact hend hmax

end Notes

section Tests

variable {w : Watch} {i : ℕ} {rest : List ℕ}

/-- The answer when the active scope is finished. -/
theorem run_finish (hstack : w.stack = i :: rest) :
    (w.run [.scopeFinish]).map Prod.snd = some [.finished (w.notes i).verdict] := by
  unfold Watch.run Watch.call
  dsimp only
  rw [hstack]
  rfl

/-- The answer when a reader is made before the active scope is finished. -/
theorem run_init_finish (hstack : w.stack = i :: rest) (address : Option ℕ) (data : List UInt8)
    (pos : ℕ) :
    (w.run [.init 0 address data pos, .scopeFinish]).map Prod.snd =
      some [.nothing, .finished (if (w.notes i).binds address data.length then
        ((w.notes i).made address data pos).verdict else (w.notes i).verdict)] := by
  have hbound : w.bound address data.length =
      if (w.notes i).binds address data.length then some i else none := by
    unfold Watch.bound
    rw [hstack]
  obtain ⟨w₁, hcall, hstack₁, hnotes⟩ : ∃ w₁, w.call (.init 0 address data pos) =
      some (w₁, .nothing) ∧ w₁.stack = w.stack ∧ w₁.notes =
        (w.note (w.bound address data.length) fun n => n.made address data pos).notes :=
    ⟨_, rfl, (note_rest w _ _).2.1, rfl⟩
  have hfinish := run_finish (hstack₁.trans hstack)
  rw [Watch.run, hcall]
  change ((w₁.run [.scopeFinish]).bind fun result => some (result.1, Answer.nothing :: result.2)).map
    Prod.snd = _
  have hmap : ∀ o : Option (Watch × List Answer),
      (o.bind fun result => some (result.1, Answer.nothing :: result.2)).map Prod.snd =
        (o.map Prod.snd).map fun answers => .nothing :: answers := by
    intro o
    cases o <;> rfl
  rw [hmap, hfinish, hnotes, note_notes, hbound]
  by_cases hbinds : (w.notes i).binds address data.length
  · rw [if_pos hbinds, if_pos rfl, if_pos hbinds]
    rfl
  · rw [if_neg hbinds, if_neg (by simp), if_neg hbinds]
    rfl

end Tests

section Runs

variable {t : Thread} {w : Watch} {i : ℕ} {rest : List ℕ} {address : Option ℕ} {data : List UInt8}
  {pos : ℕ} {mapWidthLimit mapHeightLimit : ℤ}

theorem bind_bound {n : Notes} (hbinds : n.binds address data.length) (pos : ℕ) :
    ∃ start, (n.bind address data.length pos).buffer = some (address, data.length, start) := by
  unfold Notes.bind
  cases hbuffer : n.buffer with
  | none => exact ⟨pos, rfl⟩
  | some c =>
    obtain ⟨haddress, hlen⟩ := hbinds c hbuffer
    refine ⟨c.2.2, ?_⟩
    dsimp only
    rw [hbuffer, ← haddress, ← hlen]

/-- A reader that starts behind the end gives its scope an error. -/
theorem made_invalid (n : Notes) (address : Option ℕ) (data : List UInt8) :
    (n.made address data (data.length+1)).errors = n.errors ++ [.invalidEncoding] := by
  have hinvalid : invalidAt address data (data.length+1) := Or.inr (Nat.lt_succ_self _)
  have herror : (plainInitAt address data (data.length+1)).error = .invalidEncoding := by
    unfold plainInitAt scopedInitAt
    rw [if_pos hinvalid]
    rfl
  unfold Notes.made Notes.addError
  rw [herror, if_neg (by decide)]
  dsimp only
  rw [(bind_buffer n address data.length (data.length+1)).2]

theorem verdict_without_errors {n : Notes} (hnil : n.errors = []) : n.verdict ≠ .invalidEncoding := by
  unfold Notes.verdict
  rw [hnil]
  dsimp only
  split
  · decide
  · split_ifs <;> decide

/-- The validator is noticed when it has met an error in a scope without errors: the scope is
finished at once, or after a reader that is behind the end. -/
theorem good_of_unnoticed {n : Notes} (hnil : n.errors = []) (hbinds : n.binds address data.length)
    (hfinish : n.verdict =
      (noteValidated n address data pos mapWidthLimit mapHeightLimit).verdict)
    (hinit : SameWithReader n (noteValidated n address data pos mapWidthLimit mapHeightLimit)) :
    (lastReader data pos mapWidthLimit mapHeightLimit).error = .none := by
  by_contra hbad
  have hbind := (bind_buffer n address data.length pos).2
  have herrors : (noteValidated n address data pos mapWidthLimit mapHeightLimit).errors =
      [(lastReader data pos mapWidthLimit mapHeightLimit).error] :=
    observe_first _ _ _ rfl (hbind.trans hnil) hbad
  have hbinds' : (noteValidated n address data pos mapWidthLimit mapHeightLimit).binds address
      data.length := by
    obtain ⟨start, hstart⟩ := bind_bound hbinds pos
    intro c hc
    unfold noteValidated at hc
    rw [observe_buffer, hstart] at hc
    rw [← Option.some.inj hc]
    exact ⟨rfl, rfl⟩
  have hbehind := hinit address data (data.length+1)
  rw [if_pos hbinds, if_pos hbinds', verdict_first (by rw [made_invalid, hnil]; rfl),
    verdict_first (n := Notes.made _ _ _ _) (by rw [made_invalid, herrors]; rfl)] at hbehind
  rw [verdict_first herrors, ← hbehind] at hfinish
  exact verdict_without_errors hnil hfinish

/-- The validator is noticed when it is the first to use a scope. -/
theorem bound_of_unnoticed {n : Notes} (hnil : n.errors = []) (hwithin : n.Within)
    (haddress : address ≠ none) (hbinds : n.binds address data.length)
    (hfinish : n.verdict =
      (noteValidated n address data pos mapWidthLimit mapHeightLimit).verdict)
    (hinit : SameWithReader n (noteValidated n address data pos mapWidthLimit mapHeightLimit)) :
    n.buffer ≠ none := by
  intro hbuffer
  obtain ⟨a, ha⟩ := Option.ne_none_iff_exists'.mp haddress
  have hverdict := verdict_unbound hnil hbuffer
  have hfree : n.binds (some (a+1)) [(0 : UInt8)].length := by
    intro c hc
    rw [hbuffer] at hc
    cases hc
  have hforeign : ¬(noteValidated n address data pos mapWidthLimit mapHeightLimit).binds
      (some (a+1)) [(0 : UInt8)].length := by
    obtain ⟨start, hstart⟩ := bind_bound hbinds pos
    intro hbinds'
    have hsame := (hbinds' (address, data.length, start) (by
      unfold noteValidated
      rw [observe_buffer]
      exact hstart)).1
    rw [ha] at hsame
    have hsame := Option.some.inj hsame
    omega
  have hmade : n.made (some (a+1)) [0] 0 = { n with buffer := some (some (a+1), 1, 0) } := by
    unfold Notes.made Notes.bind
    rw [hbuffer]
    rfl
  have hother := hinit (some (a+1)) [0] 0
  rw [if_pos hfree, if_neg hforeign, ← hfinish, hverdict, hmade,
    verdict_bound (n := Notes.mk (some (some (a+1), 1, 0)) n.reads n.errors) hnil rfl] at hother
  have hreached : Notes.reached { n with buffer := some (some (a+1), 1, 0) } 0 = 0 := by
    unfold Notes.reached
    rw [hwithin.1 hbuffer]
    rfl
  rw [hreached, if_neg (by decide)] at hother
  cases hother

/-- What is known of a scope in which the validator is not noticed. -/
theorem undisturbed_of_unnoticed (hstack : w.stack = i :: rest) (hsound : w.Sound)
    (haddress : address ≠ none) (hpos : pos ≤ data.length)
    (hbinds : (w.notes i).binds address data.length)
    (hall : ∀ after, (w.run after).map Prod.snd =
      ((watchValidated w address data pos mapWidthLimit mapHeightLimit).run after).map Prod.snd) :
    (w.notes i).errors ≠ [] ∨ ∃ start stop,
      (w.notes i).buffer = some (address, data.length, start) ∧
      messageStop data pos mapWidthLimit mapHeightLimit = some stop ∧
      (stop = data.length → (w.notes i).reached start = data.length) := by
  by_cases hne : (w.notes i).errors ≠ []
  · exact Or.inl hne
  have hnil := not_not.mp hne
  have hbound : w.bound address data.length = some i := by
    unfold Watch.bound
    rw [hstack]
    exact if_pos hbinds
  have hstack' : (watchValidated w address data pos mapWidthLimit mapHeightLimit).stack = i :: rest :=
    (note_rest w _ _).2.1.trans hstack
  have hnotes : (watchValidated w address data pos mapWidthLimit mapHeightLimit).notes i =
      noteValidated (w.notes i) address data pos mapWidthLimit mapHeightLimit := by
    unfold watchValidated
    rw [note_notes, if_pos hbound]
  have hfinish : (w.notes i).verdict =
      (noteValidated (w.notes i) address data pos mapWidthLimit mapHeightLimit).verdict := by
    have hrun := hall [.scopeFinish]
    rw [run_finish hstack, run_finish hstack', hnotes] at hrun
    simpa only [Option.some.injEq, List.cons.injEq, Answer.finished.injEq, and_true] using hrun
  have hinit : SameWithReader (w.notes i)
      (noteValidated (w.notes i) address data pos mapWidthLimit mapHeightLimit) := by
    intro address' data' pos'
    have hrun := hall [.init 0 address' data' pos', .scopeFinish]
    rw [run_init_finish hstack, run_init_finish hstack', hnotes] at hrun
    simpa only [Option.some.injEq, List.cons.injEq, Answer.finished.injEq, and_true,
      true_and] using hrun
  have hgood := good_of_unnoticed hnil hbinds hfinish hinit
  have hbuffer := bound_of_unnoticed hnil (hsound.within i) haddress hbinds hfinish hinit
  obtain ⟨c, hc⟩ := Option.ne_none_iff_exists'.mp hbuffer
  obtain ⟨hcaddress, hclen⟩ := hbinds c hc
  have hc : (w.notes i).buffer = some (address, data.length, c.2.2) := by
    rw [hc, ← hcaddress, ← hclen]
  have hlast := lastReader_stops mapWidthLimit mapHeightLimit hpos
  cases hstop : messageStop data pos mapWidthLimit mapHeightLimit with
  | none =>
    rw [hstop] at hlast
    exact absurd hgood hlast
  | some stop =>
    rw [hstop] at hlast
    refine Or.inr ⟨c.2.2, stop, hc, rfl, ?_⟩
    intro hend
    have hforward := messageStop_forward hstop
    have hread := observe_read (w.notes i) (initReader data pos) _ hgood
      (by rw [hlast.2]; exact Nat.ne_of_gt hforward)
    have hsame : (w.notes i).bind address data.length pos = w.notes i := by
      unfold Notes.bind
      rw [hc]
    unfold noteValidated at hfinish
    rw [hsame, hread, hlast.2, verdict_bound hnil hc,
      verdict_bound (n := Notes.mk _ ((w.notes i).reads ++ [stop]) _) hnil hc, reached_append, hend,
      if_pos (Nat.max_eq_right ((hsound.within i).2 hnil _ hc))] at hfinish
    by_contra hshort
    rw [if_neg hshort] at hfinish
    cases hfinish

/-- The same scope as a state and as notes. -/
theorem undisturbed_iff {s : Scope} {n : Notes} (h : Agrees s n)
    (hbinds : n.binds address data.length) :
    Undisturbed s data pos mapWidthLimit mapHeightLimit ↔ n.errors ≠ [] ∨ ∃ start stop,
      n.buffer = some (address, data.length, start) ∧
      messageStop data pos mapWidthLimit mapHeightLimit = some stop ∧
      (stop = data.length → n.reached start = data.length) := by
  unfold Undisturbed
  rw [ne_eq, h.error_none]
  cases hbuffer : n.buffer with
  | none =>
    obtain ⟨hinit, _⟩ := h.unbound hbuffer
    constructor
    · rintro (hne | ⟨hbound, _⟩)
      · exact Or.inl hne
      · rw [hinit] at hbound
        cases hbound
    · rintro (hne | ⟨_, _, hsome, _⟩)
      · exact Or.inl hne
      · cases hsome
  | some c =>
    obtain ⟨haddress, hlen⟩ := hbinds c hbuffer
    obtain ⟨hinit, _, _, hreached⟩ := h.bound c.1 c.2.1 c.2.2 hbuffer
    have hreached : s.pos = n.reached c.2.2 := hreached
    constructor
    · rintro (hne | ⟨_, stop, hstop, hend⟩)
      · exact Or.inl hne
      · rw [hreached] at hend
        exact Or.inr ⟨c.2.2, stop, by rw [← haddress, ← hlen], hstop, hend⟩
    · rintro (hne | ⟨start, stop, hsome, hstop, hend⟩)
      · exact Or.inl hne
      · rw [Option.some.inj hsome] at hreached
        rw [← hreached] at hend
        exact Or.inr ⟨hinit, stop, hstop, hend⟩

/-- A scope that is not disturbed is the only one that differs, and not in its reports. -/
theorem alike_validated (hstack : w.stack = i :: rest) (hsound : w.Sound) (hpos : pos ≤ data.length)
    (hbinds : (w.notes i).binds address data.length)
    (h : (w.notes i).errors ≠ [] ∨ ∃ start stop,
      (w.notes i).buffer = some (address, data.length, start) ∧
      messageStop data pos mapWidthLimit mapHeightLimit = some stop ∧
      (stop = data.length → (w.notes i).reached start = data.length)) :
    Alike i w (watchValidated w address data pos mapWidthLimit mapHeightLimit) := by
  have hbound : w.bound address data.length = some i := by
    unfold Watch.bound
    rw [hstack]
    exact if_pos hbinds
  obtain ⟨hcount, hstack', hreaders⟩ := note_rest w (w.bound address data.length) fun n =>
    noteValidated n address data pos mapWidthLimit mapHeightLimit
  refine ⟨hsound.small i (by rw [hstack]; exact List.mem_cons_self), hcount.symm, hstack'.symm,
    ?_, ?_, ?_⟩
  · intro j hj
    unfold watchValidated
    rw [note_notes, hbound, if_neg fun heq => hj (Option.some.inj heq).symm]
  · unfold watchValidated
    rw [note_notes, if_pos hbound]
    exact similar_validated (hsound.within i) hpos h
  · intro r
    change _ ∨ ∃ reader address' k k', _ ∧ (w.note _ _).readers r = _ ∧ _
    rw [show (watchValidated w address data pos mapWidthLimit mapHeightLimit).readers = w.readers
      from hreaders, hreaders]
    cases hr : w.readers r with
    | none => exact Or.inl ⟨rfl, rfl⟩
    | some b => exact Or.inr ⟨b.reader, b.address, b.scope, b.scope, rfl, rfl, Or.inl rfl⟩

/-- The answers of a thread are those of its notes. -/
theorem answers_matches (h : Matches t w) (calls : List Call) :
    (t.run calls).map Prod.snd = (w.run calls).map Prod.snd := by
  rcases run_matches calls h with ⟨hnone, hnone'⟩ | ⟨_, _, answers, hrun, hrun', _⟩
  · rw [hnone, hnone']
    rfl
  · rw [hrun, hrun']
    rfl

/-- In any thread with an active scope that is not bound to other data, no later call can tell that
the validator has been called exactly when it refuses its arguments at once or the scope is not
disturbed. -/
theorem validate_unnoticed_iff (before : List Call) (t : Thread) (answers : List Answer)
    (hrun : Thread.init.run before = some (t, answers)) (i : ℕ) (hactive : t.active = some i)
    (address : Option ℕ) (data : List UInt8) (pos : ℕ) (mapWidthLimit mapHeightLimit : ℤ)
    (hscope : ¬(t.scopes i).foreign address data.length) :
    (∀ after, (t.run after).map Prod.snd =
      ((validateIn t address data pos mapWidthLimit mapHeightLimit).1.run after).map Prod.snd) ↔
    address = none ∨ refusedAtOnce data pos mapWidthLimit mapHeightLimit ∨
      Undisturbed (t.scopes i) data pos mapWidthLimit mapHeightLimit := by
  rcases run_matches before matches_init with ⟨hnone, _⟩ | ⟨t', w, answers', hrun', hwatch, h⟩
  · rw [hnone] at hrun
    cases hrun
  rw [hrun'] at hrun
  cases hrun
  have hsound := run_sound before sound_init hwatch
  by_cases hrefused : address = none ∨ refusedAtOnce data pos mapWidthLimit mapHeightLimit
  · have hsame : (validateIn t address data pos mapWidthLimit mapHeightLimit).1 = t := by
      unfold validateIn
      rw [if_pos hrefused]
    rw [hsame, ← or_assoc]
    exact ⟨fun _ => Or.inl hrefused, fun _ _ => rfl⟩
  obtain ⟨haddress, hpos, hnot⟩ := not_refused hrefused
  obtain ⟨rest, hstack⟩ : ∃ rest, w.stack = i :: rest :=
    List.head?_eq_some_iff.mp (h.active.symm.trans hactive)
  have hagrees := h.agrees i (by rw [hstack]; exact List.mem_cons_self)
  have hbinds : (w.notes i).binds address data.length :=
    not_not.mp fun hf => hscope ((hagrees.foreign_iff address data.length).mpr hf)
  have hanswers := answers_matches (validateIn_matches h hrefused)
  rw [← or_assoc, or_iff_right hrefused, undisturbed_iff hagrees hbinds]
  constructor
  · intro hall
    apply undisturbed_of_unnoticed hstack hsound haddress hpos hbinds
    intro after
    rw [← answers_matches h, ← hanswers]
    exact hall after
  · intro hundisturbed after
    rw [answers_matches h, hanswers]
    exact run_alike after (alike_validated hstack hsound hpos hbinds hundisturbed) hsound

/-- A reader has read two bytes, and the validator refuses the first one of them. -/
theorem validate_unnoticed_refused :
    let t := ((Thread.init.run [.scopeBegin, .init 0 (some 4096) [255, 0] 0,
      .operate 0 (.take 2)]).get rfl).1
    ((∀ after, (t.run after).map Prod.snd =
      ((validateIn t (some 4096) [255, 0] 0 17 17).1.run after).map Prod.snd) ↔
      some 4096 = none ∨ refusedAtOnce [255, 0] 0 17 17 ∨ Undisturbed (t.scopes 0) [255, 0] 0 17 17) ∧
    Undisturbed (t.scopes 0) [255, 0] 0 17 17 :=
  ⟨validate_unnoticed_iff [.scopeBegin, .init 0 (some 4096) [255, 0] 0, .operate 0 (.take 2)] _ _
    rfl 0 rfl (some 4096) [255, 0] 0 17 17 (by decide),
    Or.inr ⟨rfl, 1, by decide, by decide⟩⟩

/-- In a scope that has no reader yet, a map message that breaks off is noticed when the scope is
finished. -/
theorem validate_noticed :
    ¬∀ (before : List Call) (t : Thread) (answers : List Answer),
      Thread.init.run before = some (t, answers) → ∀ i, t.active = some i →
      ∀ (address : Option ℕ) (data : List UInt8) (pos : ℕ) (mapWidthLimit mapHeightLimit : ℤ),
      ¬(t.scopes i).foreign address data.length →
      ∀ after, (t.run after).map Prod.snd =
        ((validateIn t address data pos mapWidthLimit mapHeightLimit).1.run after).map Prod.snd := by
  intro hall
  have hfinish := hall [.scopeBegin] _ _ rfl 0 rfl (some 4096) [1] 0 17 17 (by decide) [.scopeFinish]
  have hanswers : some [Answer.finished .none] = some [Answer.finished .truncated] := hfinish
  cases hanswers

end Runs

end LibAtrinik.MapProtocol

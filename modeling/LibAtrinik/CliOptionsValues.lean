import LibAtrinik.CliOptionsLoad

namespace LibAtrinik.CliOptions

open LiveHeap StatePrograms

/-- A call of `clioptions_call_handler`, which its callers make only when there is a handler. -/
def performCall (p : Platform Call) (call : ℕ × Option (List Char)) : Cli Unit := do
  let s ← get
  if (s.clioptions[call.1]?.bind Clioption.handlerFunc).isSome then
    let _ ← clioptionsCallHandler p call.1 call.2

def performCalls (p : Platform Call) : List (ℕ × Option (List Char)) → Cli Unit
  | [] => pure ()
  | call::run => do
    performCall p call
    performCalls p run

/-- The argument of the latest successful call of an option that had one. -/
def latest (calls : List Call) (i : ℕ) : Option (List Char) :=
  (calls.filterMap fun call => if call.option = i ∧ call.success then call.arg else none).getLast?

/-- Every value is `NULL`, or a live string that is the latest argument of its option. -/
def ValuesLive {H : Type} (s : State H) : Prop :=
  ∀ (i : ℕ) (cli : Clioption H), s.clioptions[i]? = some cli → ∀ address, cli.value = some address →
    ∃ text, s.heap.read address = some text ∧ latest s.calls i = some text

/-- After some calls, which free nothing twice, the values are live, also those that
`clioptions_get` hands out, and the deinitialisation frees only what is live. -/
def Intact (p : Platform Call) (s : State) (run : List (ℕ × Option (List Char))) : Prop :=
  ∃ s', performCalls p run s = .ok () s' ∧ ValuesLive s' ∧
    (∀ name address, clioptionsGet s' name = some address → ∃ text,
      s'.heap.read address = some text) ∧
    ∃ s'', clioptionsDeinit s' = .ok () s''

/-- The handlers of the options, which never change. -/
def handlers {H : Type} (s : State H) (i : ℕ) : Option H :=
  s.clioptions[i]?.bind Clioption.handlerFunc

/-- What is called for a call of `clioptions_call_handler`, and what comes of it. -/
def handled (p : Platform Call) (handlers : ℕ → Option Handler) (calls : List Call)
    (call : ℕ × Option (List Char)) : Option Call :=
  match handlers call.1 with
  | none => none
  | some handlerFunc =>
    match call.2 with
    | some ('<'::path) => (p.pathFileContents calls path).map fun text =>
        ⟨call.1, some text, (handlerFunc calls (some text)).1⟩
    | arg => some ⟨call.1, arg, (handlerFunc calls arg).1⟩

/-- A handler succeeds without an argument although its option has a value. -/
def Loses (calls : List Call) (call : Call) : Prop :=
  call.arg = none ∧ call.success = true ∧ latest calls call.option ≠ none

/-- No step of the run loses a value. -/
def Tame (p : Platform Call) (handlers : ℕ → Option Handler) :
    List Call → List (ℕ × Option (List Char)) → Prop
  | _, [] => True
  | calls, call::run =>
    match handled p handlers calls call with
    | none => Tame p handlers calls run
    | some done => ¬ Loses calls done ∧ Tame p handlers (calls++[done]) run

theorem latest_append (calls : List Call) (call : Call) (i : ℕ) :
    latest (calls++[call]) i =
      if call.option = i ∧ call.success = true ∧ call.arg ≠ none then call.arg
      else latest calls i := by
  rw [latest, List.filterMap_append]
  by_cases h : call.option = i ∧ call.success = true
  · cases harg : call.arg with
    | none => simp [h, harg, latest]
    | some arg => simp [h, harg]
  · have hnot : ¬ (call.option = i ∧ call.success = true ∧ call.arg ≠ none) :=
      fun hall => h ⟨hall.1,hall.2.1⟩
    rw [if_neg hnot]
    simp [h, latest]

section Values

variable {H : Type}

/-- The values belong to the latest arguments, and no two options share one. -/
structure Sound (clioptions : List (Clioption H)) (heap : Heap (List Char)) (calls : List Call) :
    Prop where
  values : ∀ (i : ℕ) (cli : Clioption H), clioptions[i]? = some cli →
    (cli.value = none ∧ latest calls i = none) ∨
    ∃ address text, cli.value = some address ∧ heap.read address = some text ∧
      latest calls i = some text
  distinct : ∀ (i j : ℕ) (cli other : Clioption H) (address : ℕ), clioptions[i]? = some cli →
    clioptions[j]? = some other → cli.value = some address → other.value = some address → i = j

/-- Freeing a value that is live, or none, keeps every other live string. -/
theorem free_spec (s : State H) (value : Option ℕ)
    (hlive : ∀ address, value = some address → ∃ text, s.heap.read address = some text) :
    ∃ heap, free value s = .ok () { s with heap := heap } ∧
      (∀ address, value = some address → heap.read address = none) ∧
      ∀ address text, s.heap.read address = some text → value ≠ some address →
        heap.read address = some text := by
  cases value with
  | none => exact ⟨s.heap, rfl, by simp, fun _ _ h _ => h⟩
  | some address =>
    obtain ⟨text,htext⟩ := hlive address rfl
    obtain ⟨heap,hfree,hnone,hother⟩ := free_of_read s.heap htext
    refine ⟨heap, ?_, ?_, fun other text' hread hne => ?_⟩
    · rw [free, get_bind, hfree]
      rfl
    · rintro _ ⟨⟩
      exact hnone
    · rw [hother other fun h => hne (congrArg some h.symm), hread]

theorem Sound.live {clioptions : List (Clioption H)} {heap : Heap (List Char)} {calls : List Call}
    (h : Sound clioptions heap calls) {i : ℕ} {cli : Clioption H} (hcli : clioptions[i]? = some cli)
    {address : ℕ} (hvalue : cli.value = some address) :
    ∃ text, heap.read address = some text ∧ latest calls i = some text := by
  rcases h.values i cli hcli with ⟨hnone,-⟩ | ⟨address',text,hsome,hread,hlatest⟩
  · rw [hnone] at hvalue
    cases hvalue
  · rw [hsome, Option.some.injEq] at hvalue
    exact ⟨text, hvalue ▸ hread, hlatest⟩

/-- A call that leaves the values alone and is not a successful one with an argument. -/
theorem Sound.keep {clioptions : List (Clioption H)} {heap heap' : Heap (List Char)}
    {calls : List Call} (h : Sound clioptions heap calls) {call : Call}
    (hcall : ¬ (call.success = true ∧ call.arg ≠ none))
    (hheap : ∀ (j : ℕ) (other : Clioption H) (address : ℕ) (text : List Char),
      clioptions[j]? = some other → other.value = some address →
        heap.read address = some text → heap'.read address = some text) :
    Sound clioptions heap' (calls++[call]) where
  values i cli hcli := by
    rw [latest_append, if_neg fun hall => hcall hall.2]
    rcases h.values i cli hcli with hnone | ⟨address,text,hvalue,hread,hlatest⟩
    · exact Or.inl hnone
    · exact Or.inr ⟨address, text, hvalue, hheap i cli address text hcli hvalue hread, hlatest⟩
  distinct := h.distinct

/-- An option after one of them has got a new value: it is that one, or as before. -/
theorem setValue_cases {clioptions : List (Clioption H)} {i j : ℕ} {cli option : Clioption H}
    {fresh : ℕ} (hcli : clioptions[i]? = some cli)
    (hj : (clioptions.modify i fun option => { option with value := some fresh })[j]? =
      some option) :
    (j = i ∧ option.value = some fresh) ∨ (j ≠ i ∧ clioptions[j]? = some option) := by
  rw [List.getElem?_modify] at hj
  by_cases hij : i = j
  · subst hij
    simp only [hcli, if_true, Option.map_eq_map, Option.map_some, Option.some.injEq] at hj
    exact Or.inl ⟨rfl, by rw [← hj]⟩
  · simp only [hij, if_false, Option.map_eq_map, Option.map_id'] at hj
    exact Or.inr ⟨Ne.symm hij, hj⟩

/-- A successful call with an argument, which the new value of its option holds. -/
theorem Sound.replace {clioptions : List (Clioption H)} {heap heap' : Heap (List Char)}
    {calls : List Call} (h : Sound clioptions heap calls) {i : ℕ} {cli : Clioption H}
    (hcli : clioptions[i]? = some cli) {text : List Char} {fresh : ℕ}
    (hfresh : heap'.read fresh = some text)
    (hheap : ∀ (j : ℕ) (other : Clioption H) (address : ℕ) (text : List Char),
      clioptions[j]? = some other → other.value = some address →
        heap.read address = some text → cli.value ≠ some address →
          heap'.read address = some text ∧ address ≠ fresh) :
    Sound (clioptions.modify i fun option => { option with value := some fresh }) heap'
      (calls++[⟨i, some text, true⟩]) := by
  -- The value of any other option is an old one, and not the one that was freed.
  have hothers (j : ℕ) (other : Clioption H) (hj : clioptions[j]? = some other) (hne : j ≠ i)
      (address : ℕ) (hvalue : other.value = some address) : ∃ text,
      heap'.read address = some text ∧ latest calls j = some text ∧ address ≠ fresh := by
    obtain ⟨text,hread,hlatest⟩ := h.live hj hvalue
    have hold : cli.value ≠ some address :=
      fun hsame => hne (h.distinct j i other cli address hj hcli hvalue hsame)
    obtain ⟨hread',hne'⟩ := hheap j other address text hj hvalue hread hold
    exact ⟨text, hread', hlatest, hne'⟩
  constructor
  · intro j option hj
    rw [latest_append]
    rcases setValue_cases hcli hj with ⟨rfl,hvalue⟩ | ⟨hne,hj⟩
    · exact Or.inr ⟨fresh, text, hvalue, hfresh, by simp⟩
    · rw [if_neg fun hall => hne hall.1.symm]
      cases hvalue : option.value with
      | none =>
        rcases h.values j option hj with hnone | ⟨address,text,hsome,-⟩
        · exact Or.inl ⟨rfl,hnone.2⟩
        · rw [hvalue] at hsome
          cases hsome
      | some address =>
        obtain ⟨text,hread,hlatest,-⟩ := hothers j option hj hne address hvalue
        exact Or.inr ⟨address, text, rfl, hread, hlatest⟩
  · intro j k option other address hj hk hvalue hvalue'
    rcases setValue_cases hcli hj with ⟨hji,hfreshj⟩ | ⟨hnej,hj'⟩ <;>
      rcases setValue_cases hcli hk with ⟨hki,hfreshk⟩ | ⟨hnek,hk'⟩
    · rw [hji, hki]
    · rw [hfreshj, Option.some.injEq] at hvalue
      obtain ⟨-,-,-,hne⟩ := hothers k other hk' hnek address hvalue'
      exact absurd hvalue.symm hne
    · rw [hfreshk, Option.some.injEq] at hvalue'
      obtain ⟨-,-,-,hne⟩ := hothers j option hj' hnej address hvalue
      exact absurd hvalue'.symm hne
    · exact h.distinct j k option other address hj' hk' hvalue hvalue'

/-- What a run may rely on before a step, and what the step does. -/
def Sounds (s : State H) : Prop := Sound s.clioptions s.heap s.calls

/-- An option without its value. -/
def forget (cli : Clioption H) : Clioption H := { cli with value := none }

/-- What no handler changes. -/
def registered (s : State H) : List (Clioption H) × Bool := (s.clioptions.map forget, s.runtime)

theorem handlers_congr {s s' : State H} (h : registered s' = registered s) :
    handlers s' = handlers s := by
  have hforget (s : State H) (i : ℕ) :
      handlers s i = ((registered s).1[i]?).bind Clioption.handlerFunc := by
    rw [handlers, registered, List.getElem?_map]
    cases s.clioptions[i]? <;> rfl
  funext i
  rw [hforget, hforget, h]

/-- An option stays where it is, with its name and its handler. -/
theorem registered_option {s s' : State H} (h : registered s' = registered s) {i : ℕ}
    {cli : Clioption H} (hcli : s.clioptions[i]? = some cli) :
    ∃ cli', s'.clioptions[i]? = some cli' ∧ forget cli' = forget cli := by
  have hoption : (s'.clioptions.map forget)[i]? = some (forget cli) := by
    rw [show s'.clioptions.map forget = s.clioptions.map forget from congrArg Prod.fst h,
      List.getElem?_map, hcli, Option.map_some]
  rw [List.getElem?_map] at hoption
  exact Option.map_eq_some_iff.mp hoption

theorem registered_setValue (s : State H) (i : ℕ) (value : Option ℕ) (heap : Heap (List Char))
    (calls : List Call) : registered { s with
      clioptions := s.clioptions.modify i fun option => { option with value := value },
      heap := heap, calls := calls } = registered s := by
  refine Prod.ext (List.ext_getElem? fun j => ?_) rfl
  change ((s.clioptions.modify i fun option => { option with value := value }).map forget)[j]? =
    (s.clioptions.map forget)[j]?
  rw [List.getElem?_map, List.getElem?_map, List.getElem?_modify]
  cases s.clioptions[j]? with
  | none => rfl
  | some cli => by_cases hij : i = j <;> simp [hij, forget]

/-- A live string that is no value. -/
def Spare (s : State H) (address : ℕ) (text : List Char) : Prop :=
  s.heap.read address = some text ∧
    ∀ (j : ℕ) (other : Clioption H), s.clioptions[j]? = some other → other.value ≠ some address

/-- The string that holds the contents of a file: it is live, and no value yet. -/
def Contents (s : State H) (arg : Option (List Char)) (address : ℕ) : Prop :=
  ∃ text, arg = some text ∧ Spare s address text

/-- A step that calls a handler, from its calls to the state that it leaves behind. It may take the
string with the contents of a file. -/
structure Stepped (s s' : State H) (contents : Option ℕ) (call : Call) : Prop where
  calls : s'.calls = s.calls ++ [call]
  registered : registered s' = registered s
  spare : ∀ address text, Spare s address text → contents ≠ some address → Spare s' address text
  kept : ¬ Loses s.calls call → Sounds s'
  lost : Loses s.calls call → ¬ ValuesLive s'

/-- The state after the call of a handler. -/
def logged (s : State H) (call : Call) : State H := { s with calls := s.calls ++ [call] }

/-- An option that has got a new value has no spare string for it. -/
theorem Spare.setValue {s : State H} {address fresh : ℕ} {text : List Char}
    (h : Spare s address text) {i : ℕ} {cli : Clioption H} (hcli : s.clioptions[i]? = some cli)
    {heap : Heap (List Char)} (hread : heap.read address = some text) (hne : address ≠ fresh)
    (calls : List Call) : Spare { s with
      clioptions := s.clioptions.modify i fun option => { option with value := some fresh },
      heap := heap, calls := calls } address text := by
  refine ⟨hread, fun j other hj => ?_⟩
  rcases setValue_cases hcli hj with ⟨-,hvalue⟩ | ⟨-,hj⟩
  · rw [hvalue, Ne, Option.some.injEq]
    exact hne.symm
  · exact h.2 j other hj

/-- After a successful handler the value is the new argument; without one it is only freed. -/
theorem replaceValue_spec (m : Allocator) {s : State H} (h : Sounds s) {i : ℕ} {cli : Clioption H}
    (hcli : s.clioptions[i]? = some cli) {contents : Option ℕ} {arg : Option (List Char)}
    (hcontents : ∀ b, contents = some b → Contents s arg b) :
    ∃ s', replaceValue m i cli.value contents arg (logged s ⟨i,arg,true⟩) = .ok () s' ∧
      Stepped s s' contents ⟨i,arg,true⟩ := by
  obtain ⟨heap,hfree,hfreed,hkept⟩ := free_spec (logged s ⟨i,arg,true⟩) cli.value fun b hb => by
    obtain ⟨text,hread,-⟩ := h.live hcli hb
    exact ⟨text,hread⟩
  -- A spare string is not the value that was freed.
  have hspare (address : ℕ) (text : List Char) (hs : Spare s address text) :
      heap.read address = some text := hkept address text hs.1 (hs.2 i cli hcli)
  rw [replaceValue, bind_ok hfree]
  cases hc : contents with
  | some b =>
    -- The contents of the file become the value.
    obtain ⟨text,rfl,hread,hnot⟩ := hcontents b hc
    refine ⟨_, rfl, rfl, registered_setValue _ _ _ _ _, fun address text' hs hne => ?_, fun _ => ?_,
      fun hl => absurd hl.1 (by simp)⟩
    · exact hs.setValue hcli (hspare address text' hs) (fun hb => hne (congrArg some hb.symm)) _
    · refine h.replace hcli (hkept b text hread (hnot i cli hcli)) ?_
      intro j other address text' hj hvalue hread' hold
      exact ⟨hkept address text' hread' hold, fun hb => hnot j other hj (hb ▸ hvalue)⟩
  | none =>
    cases arg with
    | some text =>
      -- The value is a copy of the argument.
      refine ⟨_, rfl, rfl, registered_setValue _ _ _ _ _, fun address text' hs _ => ?_, fun _ => ?_,
        fun hl => absurd hl.1 (by simp)⟩
      · obtain ⟨hread,hne⟩ := read_alloc m heap text text' (hspare address text' hs)
        exact hs.setValue hcli hread hne _
      · refine h.replace hcli (read_alloc_self m heap text) ?_
        intro j other address text' hj hvalue hread' hold
        exact read_alloc m heap text text' (hkept address text' hread' hold)
    | none =>
      refine ⟨_, rfl, rfl, rfl, fun address text hs _ => ⟨hspare address text hs, hs.2⟩,
        fun hkeeps => ?_, fun hl hlive => ?_⟩
      · -- There was no value to free.
        have hnone : cli.value = none := by
          rcases h.values i cli hcli with ⟨hnone,-⟩ | ⟨address,text,-,-,hlatest⟩
          · exact hnone
          · exact absurd ⟨rfl,rfl,by simp [hlatest]⟩ hkeeps
        refine h.keep (by simp) fun j other address text hj hvalue hread => ?_
        exact hkept address text hread (by simp [hnone])
      · -- The value that was freed is still there.
        rcases h.values i cli hcli with ⟨-,hnone⟩ | ⟨address,text,hvalue,-,-⟩
        · exact hl.2.2 hnone
        · obtain ⟨text',hread,-⟩ := hlive i cli hcli address hvalue
          rw [show heap.read address = none from hfreed address hvalue] at hread
          cases hread

/-- The end of a call, with the contents of a file or without, once its handler has come back. -/
theorem finishCall_spec (m : Allocator) {call : Caller H} {s s₁ : State H} {i : ℕ}
    {cli : Clioption H} {handlerFunc : H} {arg : Option (List Char)} {success : Bool}
    {errmsg : Option (List Char)} (hcall : call handlerFunc arg s = .ok (success,errmsg) s₁)
    (h : Sounds s₁) (hcli : s₁.clioptions[i]? = some cli) {contents : Option ℕ}
    (hcontents : ∀ b, contents = some b → Contents s₁ arg b) :
    ∃ s', finishCall m call i handlerFunc contents arg s = .ok (success,errmsg) s' ∧
      Stepped s₁ s' contents ⟨i,arg,success⟩ := by
  rw [finishCall, bind_ok hcall]
  cases success with
  | false =>
    -- The contents are freed, and the values stay as they are.
    obtain ⟨heap,hfree,-,hkept⟩ := free_spec (logged s₁ ⟨i,arg,false⟩) contents fun b hb => by
      obtain ⟨text,-,hread,-⟩ := hcontents b hb
      exact ⟨text,hread⟩
    refine ⟨_, bind_ok hfree, rfl, rfl, fun address text hs hne => ?_, fun _ => ?_,
      fun hl => absurd hl.2.1 (by simp)⟩
    · exact ⟨hkept address text hs.1 hne, hs.2⟩
    · refine h.keep (by simp) fun j other address text hj hvalue hread => ?_
      refine hkept address text hread fun hb => ?_
      obtain ⟨-,-,-,hnot⟩ := hcontents address hb
      exact hnot j other hj hvalue
  | true =>
    obtain ⟨s',hreplace,hstepped⟩ := replaceValue_spec m h hcli hcontents
    have hvalue : (logged s₁ ⟨i,arg,true⟩).clioptions[i]?.bind Clioption.value = cli.value := by
      rw [logged, hcli]
      rfl
    refine ⟨s', ?_, hstepped⟩
    have hnote : note ⟨i,arg,true⟩ s₁ = .ok () (logged s₁ ⟨i,arg,true⟩) := rfl
    refine (bind_ok hnote).trans ?_
    rw [if_pos rfl, get_bind, hvalue]
    exact bind_ok hreplace

/-- What the handler is given: the argument, or the contents of the file that it names, if this can
be opened. -/
def given (p : Platform Call) (calls : List Call) (arg : Option (List Char)) :
    Option (Option (List Char)) :=
  match arg with
  | some ('<'::path) => (p.pathFileContents calls path).map some
  | arg => some arg

/-- The state in which the handler is called, which has the contents of a file as a new string. -/
structure Prepared (s s₁ : State H) (contents : Option ℕ) (arg : Option (List Char)) : Prop where
  calls : s₁.calls = s.calls
  registered : registered s₁ = registered s
  sound : Sounds s₁
  fresh : ∀ b, contents = some b → Contents s₁ arg b
  spare : ∀ address text, Spare s address text →
    Spare s₁ address text ∧ contents ≠ some address

theorem Prepared.stepped {s s₁ s' : State H} {contents : Option ℕ} {arg : Option (List Char)}
    {call : Call} (h : Prepared s s₁ contents arg) (hstepped : Stepped s₁ s' contents call) :
    Stepped s s' none call where
  calls := by rw [hstepped.calls, h.calls]
  registered := hstepped.registered.trans h.registered
  spare address text hs _ :=
    hstepped.spare address text (h.spare address text hs).1 (h.spare address text hs).2
  kept := by
    rw [← h.calls]
    exact hstepped.kept
  lost := by
    rw [← h.calls]
    exact hstepped.lost

/-- Allocating keeps the values sound, and the new string is none of them. -/
theorem prepared_alloc (m : Allocator) {s : State H} (h : Sounds s) (text : List Char) :
    Prepared s { s with heap := s.heap.alloc m text } (some (m.malloc s.heap.live))
      (some text) where
  calls := rfl
  registered := rfl
  sound := by
    refine ⟨fun i cli hcli => ?_, h.distinct⟩
    rcases h.values i cli hcli with hnone | ⟨address,text',hvalue,hread,hlatest⟩
    · exact Or.inl hnone
    · exact Or.inr ⟨address, text', hvalue, (read_alloc m s.heap text text' hread).1, hlatest⟩
  fresh := by
    rintro _ ⟨⟩
    refine ⟨text, rfl, read_alloc_self m s.heap text, fun j other hj hvalue => ?_⟩
    obtain ⟨text',hread,-⟩ := Sound.live h hj hvalue
    exact (read_alloc m s.heap text text' hread).2 rfl
  spare address text' hs := by
    obtain ⟨hread,hne⟩ := read_alloc m s.heap text text' hs.1
    exact ⟨⟨hread,hs.2⟩, fun heq => hne (Option.some.inj heq).symm⟩

section Given

variable (p : Platform Call) (call : Caller H) {s : State H} {i : ℕ} {cli : Clioption H}
  {handlerFunc : H} (hcli : s.clioptions[i]? = some cli)
  (hhandler : cli.handlerFunc = some handlerFunc) {arg : Option (List Char)}

include hcli hhandler

/-- A call whose file cannot be opened changes nothing. -/
theorem clioptionsCallHandler_missing (hgiven : given p s.calls arg = none) :
    ∃ result, clioptionsCallHandlerWith p call i arg s = .ok result s := by
  unfold given at hgiven
  split at hgiven
  · rename_i path
    have hfile : p.pathFileContents s.calls path = none := by simpa using hgiven
    rw [clioptionsCallHandler_file p hcli hhandler, hfile]
    exact ⟨_,rfl⟩
  · cases hgiven

/-- Any other call comes to the handler. -/
theorem clioptionsCallHandler_given (h : Sounds s) {arg' : Option (List Char)}
    (hgiven : given p s.calls arg = some arg') : ∃ s₁ contents,
      clioptionsCallHandlerWith p call i arg s =
        finishCall p.allocator call i handlerFunc contents arg' s₁ ∧
      Prepared s s₁ contents arg' := by
  unfold given at hgiven
  split at hgiven
  · rename_i path
    obtain ⟨text,hfile,rfl⟩ := Option.map_eq_some_iff.mp hgiven
    rw [clioptionsCallHandler_file p hcli hhandler, hfile]
    exact ⟨_, _, rfl, prepared_alloc p.allocator h text⟩
  · rename_i hplain
    cases hgiven
    rw [clioptionsCallHandler_plain p hcli hhandler]
    · exact ⟨s, none, rfl, rfl, rfl, h, by simp, fun _ _ hs => ⟨hs, by simp⟩⟩
    · rintro text rfl hhead
      obtain ⟨path,rfl⟩ := List.head?_eq_some_iff.mp hhead
      exact hplain path rfl

end Given

/-- Before anything was called there are no values. -/
theorem sounds_initial {clioptions : List (Clioption H)}
    (hvalues : ∀ cli ∈ clioptions, cli.value = none) (runtime : Bool) (heap : Heap (List Char)) :
    Sounds ⟨clioptions,runtime,heap,[]⟩ where
  values _ cli hcli := Or.inl ⟨hvalues cli (List.mem_of_getElem? hcli), rfl⟩
  distinct i _ cli _ _ hi _ hvalue := by
    rw [hvalues cli (List.mem_of_getElem? hi)] at hvalue
    cases hvalue

theorem Sound.valuesLive {s : State H} (h : Sounds s) : ValuesLive s :=
  fun _ _ hcli _ hvalue => Sound.live h hcli hvalue

end Values

theorem handled_eq (p : Platform Call) {handlers : ℕ → Option Handler} {i : ℕ}
    {handlerFunc : Handler} (hhandler : handlers i = some handlerFunc) (calls : List Call)
    (arg : Option (List Char)) : handled p handlers calls (i,arg) =
      (given p calls arg).map fun arg => ⟨i, arg, (handlerFunc calls arg).1⟩ := by
  rw [handled]
  simp only [hhandler, given]
  split
  · rw [Option.map_map]
    rfl
  · rfl

/-- A call changes nothing, when its file cannot be opened, or its handler is called. -/
theorem clioptionsCallHandler_spec (p : Platform Call) {s : State} (h : Sounds s) {i : ℕ}
    {cli : Clioption} {handlerFunc : Handler} (hcli : s.clioptions[i]? = some cli)
    (hhandler : cli.handlerFunc = some handlerFunc) (arg : Option (List Char)) :
    (handled p (handlers s) s.calls (i,arg) = none ∧
      ∃ result, clioptionsCallHandler p i arg s = .ok result s) ∨
    ∃ done s' result, handled p (handlers s) s.calls (i,arg) = some done ∧
      clioptionsCallHandler p i arg s = .ok result s' ∧ Stepped s s' none done := by
  have hhandlers : handlers s i = some handlerFunc := by simp [handlers, hcli, hhandler]
  rw [handled_eq p hhandlers, clioptionsCallHandler]
  cases hgiven : given p s.calls arg with
  | none => exact Or.inl ⟨rfl, clioptionsCallHandler_missing p callPlain hcli hhandler hgiven⟩
  | some arg' =>
    obtain ⟨s₁,contents,hcall,hprepared⟩ :=
      clioptionsCallHandler_given p callPlain hcli hhandler h hgiven
    obtain ⟨cli₁,hcli₁,-⟩ := registered_option hprepared.registered hcli
    have hplain : callPlain handlerFunc arg' s₁ = .ok (handlerFunc s.calls arg') s₁ := by
      rw [← hprepared.calls]
      rfl
    obtain ⟨s',hfinish,hstepped⟩ := finishCall_spec p.allocator hplain hprepared.sound hcli₁
      hprepared.fresh
    exact Or.inr ⟨_, s', _, rfl, hcall.trans hfinish, hprepared.stepped hstepped⟩

/-- One call: it changes nothing, or a handler is called. -/
theorem performCall_spec (p : Platform Call) {s : State} (h : Sounds s)
    (call : ℕ × Option (List Char)) :
    (handled p (handlers s) s.calls call = none ∧ performCall p call s = .ok () s) ∨
    ∃ done s', handled p (handlers s) s.calls call = some done ∧
      performCall p call s = .ok () s' ∧ Stepped s s' none done := by
  obtain ⟨i,arg⟩ := call
  rw [performCall, get_bind]
  cases hhandler : handlers s i with
  | none =>
    refine Or.inl ⟨by simp [handled, hhandler], ?_⟩
    rw [handlers] at hhandler
    rw [hhandler]
    rfl
  | some handlerFunc =>
    obtain ⟨cli,hcli,hfunc⟩ := Option.bind_eq_some_iff.mp hhandler
    have hsome : (s.clioptions[i]?.bind Clioption.handlerFunc).isSome = true := by
      simp [hcli, hfunc]
    rw [if_pos hsome]
    rcases clioptionsCallHandler_spec p h hcli hfunc arg with
      ⟨hnone,result,hok⟩ | ⟨done,s',result,hdone,hok,hstepped⟩
    · exact Or.inl ⟨hnone, bind_ok hok⟩
    · exact Or.inr ⟨done, s', hdone, bind_ok hok, hstepped⟩

/-- The deinitialisation of options whose values are live, and different from each other. -/
theorem freeValues_ok (clioptions : List Clioption) (s : State)
    (hlive : ∀ cli ∈ clioptions, ∀ address, cli.value = some address →
      ∃ text, s.heap.read address = some text)
    (hapart : clioptions.Pairwise fun cli other =>
      ∀ address, cli.value = some address → other.value ≠ some address) :
    ∃ s', freeValues clioptions s = .ok () s' := by
  induction clioptions generalizing s with
  | nil => exact ⟨s,rfl⟩
  | cons cli clioptions ih =>
    obtain ⟨hfirst,hrest⟩ := List.pairwise_cons.mp hapart
    obtain ⟨heap,hfree,-,hkept⟩ := free_spec s cli.value (hlive cli List.mem_cons_self)
    obtain ⟨s',hs'⟩ := ih { s with heap := heap } (fun other hother address hvalue => by
      obtain ⟨text,hread⟩ := hlive other (List.mem_cons_of_mem cli hother) address hvalue
      exact ⟨text, hkept address text hread fun h => hfirst other hother address h hvalue⟩) hrest
    exact ⟨s', by rw [freeValues, bind_ok hfree, hs']⟩

theorem Sound.deinit {s : State} (h : Sounds s) : ∃ s', clioptionsDeinit s = .ok () s' := by
  obtain ⟨s',hs'⟩ := freeValues_ok s.clioptions s
    (fun cli hcli address hvalue => by
      obtain ⟨i,hi⟩ := List.getElem?_of_mem hcli
      obtain ⟨text,hread,-⟩ := Sound.live h hi hvalue
      exact ⟨text,hread⟩)
    (by
      rw [List.pairwise_iff_getElem]
      intro i j hi hj hij address hvalue hvalue'
      exact absurd (h.distinct i j _ _ address (List.getElem?_eq_getElem hi)
        (List.getElem?_eq_getElem hj) hvalue hvalue') (Nat.ne_of_lt hij))
  exact ⟨_, by rw [clioptionsDeinit, get_bind, bind_ok hs']; rfl⟩

theorem Sound.get {s : State} (h : Sounds s) {name : List Char} {address : ℕ}
    (hget : clioptionsGet s name = some address) : ∃ text, s.heap.read address = some text := by
  obtain ⟨cli,hfind,hvalue⟩ := Option.bind_eq_some_iff.mp hget
  obtain ⟨i,hi⟩ := List.getElem?_of_mem (List.mem_of_find?_eq_some hfind)
  obtain ⟨text,hread,-⟩ := Sound.live h hi hvalue
  exact ⟨text,hread⟩

theorem intact_nil (p : Platform Call) {s : State} (h : Sounds s) : Intact p s [] :=
  ⟨s, rfl, Sound.valuesLive h, fun _ _ => Sound.get h, Sound.deinit h⟩

theorem intact_cons (p : Platform Call) {s s' : State} {call : ℕ × Option (List Char)}
    (hcall : performCall p call s = .ok () s') (run : List (ℕ × Option (List Char))) :
    Intact p s (call::run) ↔ Intact p s' run := by
  rw [Intact, Intact, performCalls, bind_ok hcall]

/-- From a sound state, every part of a run keeps the values intact exactly when none of its steps
loses a value. -/
theorem intact_iff_tame (p : Platform Call) (run : List (ℕ × Option (List Char))) (s : State)
    (h : Sounds s) :
    (∀ n, Intact p s (run.take n)) ↔ Tame p (handlers s) s.calls run := by
  induction run generalizing s with
  | nil => exact iff_of_true (fun n => by rw [List.take_nil]; exact intact_nil p h) trivial
  | cons call run ih =>
    have hsplit : (∀ n, Intact p s ((call::run).take n)) ↔
        ∀ n, Intact p s (call::run.take n) := by
      refine ⟨fun hall n => hall (n+1), fun hall n => ?_⟩
      cases n with
      | zero => exact intact_nil p h
      | succ n => exact hall n
    rw [hsplit, Tame]
    rcases performCall_spec p h call with ⟨hnone,hok⟩ | ⟨done,s',hdone,hok,hstepped⟩
    · simp only [intact_cons p hok, hnone]
      exact ih s h
    · simp only [intact_cons p hok, hdone]
      by_cases hl : Loses s.calls done
      · -- Right after the step the value is there, but not live.
        refine iff_of_false (fun hall => ?_) fun htame => htame.1 hl
        obtain ⟨s'',hsame,hlive,-⟩ := hall 0
        cases hsame
        exact hstepped.lost hl hlive
      · have hnext := ih s' (hstepped.kept hl)
        rw [hstepped.calls, handlers_congr hstepped.registered] at hnext
        rw [hnext]
        exact (and_iff_right hl).symm

/-- The values of the options stay intact during a run exactly when no handler succeeds without an
argument after it has succeeded with one. -/
theorem values_live_iff (p : Platform Call) (clioptions : List Clioption)
    (hvalues : ∀ cli ∈ clioptions, cli.value = none) (runtime : Bool) (heap : Heap (List Char))
    (run : List (ℕ × Option (List Char))) :
    (∀ n, Intact p ⟨clioptions,runtime,heap,[]⟩ (run.take n)) ↔
      Tame p (handlers ⟨clioptions,runtime,heap,[]⟩) [] run :=
  intact_iff_tame p run ⟨clioptions,runtime,heap,[]⟩ (sounds_initial hvalues runtime heap)

/-- An option that may be given with a value or without. -/
def colorOption : Clioption :=
  { name := "color".toList, handlerFunc := some fun _ _ => (true, none) }

def colorState : State := ⟨[colorOption], false, ⟨[], fun _ => []⟩, []⟩

theorem values_live_iff_color :
    (∀ n, Intact noFiles colorState ([(0, none), (0, some ['x'])].take n)) ↔
      Tame noFiles (handlers colorState) [] [(0, none), (0, some ['x'])] :=
  values_live_iff noFiles [colorOption]
    (fun cli hcli => by rw [List.mem_singleton.mp hcli]; rfl) false ⟨[], fun _ => []⟩
    [(0, none), (0, some ['x'])]

/-- Whether the program has touched what is not live. -/
def faulted {α : Type} : EStateM.Result Stop State α → Bool
  | .error .fault _ => true
  | _ => false

/-- `--color=x --color` leaves a value behind that the deinitialisation frees again, and with one
more `--color` it is freed again before. -/
theorem values_freed_twice :
    faulted ((do
      clioptionsParse noFiles ["server".toList, "--color=x".toList, "--color".toList]
      clioptionsDeinit) colorState) = true ∧
    faulted (clioptionsParse noFiles ["server".toList, "--color=x".toList, "--color".toList,
      "--color".toList] colorState) = true ∧
    ¬ ∀ (p : Platform Call) (clioptions : List Clioption) (runtime : Bool)
      (heap : Heap (List Char)) (run : List (ℕ × Option (List Char))),
      (∀ cli ∈ clioptions, cli.value = none) → Intact p ⟨clioptions,runtime,heap,[]⟩ run := by
  refine ⟨by decide +kernel, by decide +kernel, fun hall => ?_⟩
  have hintact : Intact noFiles colorState [(0, some ['x']), (0, none)] :=
    hall noFiles [colorOption] false ⟨[], fun _ => []⟩ _
      fun cli hcli => by rw [List.mem_singleton.mp hcli]; rfl
  obtain ⟨s',hrun,-,-,s'',hdeinit⟩ := hintact
  have hfault : faulted ((do
      performCalls noFiles [(0, some ['x']), (0, none)]
      clioptionsDeinit) colorState) = true := by decide +kernel
  rw [bind_ok hrun, hdeinit] at hfault
  cases hfault

end LibAtrinik.CliOptions

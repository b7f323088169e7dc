import LibAtrinik.StringWords

namespace LibAtrinik.Path

open LexicalPath DelimitedText

/-- The components from a position on: none at the end, or else the word behind the delimiters and
those behind it. -/
theorem components_drop (delim : Char) (path : List Char) (pos : ℕ) :
    let i := skip delim path pos
    let j := word delim path i
    components delim (path.drop pos) =
      if slice path i j = [] then [] else slice path i j::components delim (path.drop j) := by
  intro i j
  have hstart : components delim (path.drop pos) = components delim (path.drop i) := by
    rw [show path.drop i = _ from drop_reach _ path pos, components_dropWhile]
  have hfront : slice path i j = (path.drop i).takeWhile fun c => c ≠ delim :=
    (takeWhile_eq_slice _ path i).symm
  have hback : path.drop j = (path.drop i).dropWhile fun c => c ≠ delim := drop_reach _ path i
  have hsplit : path.drop i = slice path i j ++ path.drop j := by
    rw [hfront, hback, List.takeWhile_append_dropWhile]
  have hfree : delim ∉ slice path i j := by
    rw [hfront]
    exact fun h => by simpa using List.mem_takeWhile_imp h
  -- The word ends with the path or before a delimiter.
  have hnext : path.drop j = [] ∨ ∃ tail, path.drop j = delim::tail := by
    cases hd : path.drop j with
    | nil => exact Or.inl rfl
    | cons c tail =>
      have hnot := List.head?_dropWhile_not (fun c => decide (c ≠ delim)) (path.drop i)
      rw [← hback, hd, List.head?_cons] at hnot
      have hc : c = delim := by simpa using hnot
      exact Or.inr ⟨tail, by rw [hc]⟩
  rw [hstart]
  split_ifs with hempty
  · rcases hnext with hend | ⟨tail,htail⟩
    · rw [hsplit, hempty, hend, List.append_nil, components_nil]
    · -- Behind the skipped delimiters there is none.
      have hhead : path[i]? = some delim := by
        rw [← List.head?_drop, hsplit, hempty, htail]
        rfl
      exact absurd hhead not_sep_at_skip
  · rcases hnext with hend | ⟨tail,htail⟩
    · rw [hsplit, hend, List.append_nil, components_word delim hfree hempty, components_nil]
    · rw [hsplit, htail, components_append_sep, components_word delim hfree hempty,
        components_sep]
      rfl

/-- What `string_get_word` finds at a position: nothing at the end of the components, and otherwise
the first of them, cut off where the buffer ends. The position is then behind it. -/
theorem stringGetWord_spec (path : List Char) (pos : ℕ) (delim : Char) (wordsize : ℕ)
    (hsize : 1 < wordsize) :
    match components delim (path.drop pos) with
    | [] => (stringGetWord (some path) pos delim wordsize none).1 = none
    | component::rest => ∃ pos', components delim (path.drop pos') = rest ∧
        stringGetWord (some path) pos delim wordsize none =
          (some (component.take (wordsize-1)), pos') := by
  have hcomponents := components_drop delim path pos
  have hscan := stringGetWord_scan path pos delim wordsize
  dsimp only at hcomponents hscan
  rw [hcomponents, hscan]
  by_cases hempty : slice path (skip delim path pos) (word delim path (skip delim path pos)) = []
  · simp only [hempty, List.take_nil, if_true]
  · have hne : (slice path (skip delim path pos) (word delim path (skip delim path pos))).take
        (wordsize-1) ≠ [] := by
      simp only [ne_eq, List.take_eq_nil_iff, hempty, or_false]
      omega
    simp only [if_neg hempty, if_neg hne]
    refine ⟨_, ?_, rfl⟩
    rw [show path.drop (skip delim path _) = _ from drop_reach _ path _, components_dropWhile]

/-- The loop handles the components one after the other, each cut off at 255 characters. -/
theorem normalizeLoop_eq (path : List Char) (startsbpos fuel pos : ℕ) (s : Normalizing)
    (hfuel : (components '/' (path.drop pos)).length < fuel) :
    FuelLoop.run (normalizeRound path startsbpos) fuel (pos,s) =
      some (((components '/' (path.drop pos)).map (List.take 255)).foldl
        (normalizeComponent startsbpos) s) := by
  induction fuel generalizing pos s with
  | zero => omega
  | succ fuel ih =>
    have hword := stringGetWord_spec path pos '/' maxBuf (by decide)
    cases hc : components '/' (path.drop pos) with
    | nil =>
      rw [hc] at hword
      exact FuelLoop.run_leave _ _ _ _ (by
        rw [normalizeRound, Prod.eta (stringGetWord _ _ _ _ _) |>.symm, hword]; rfl)
    | cons component rest =>
      rw [hc] at hword hfuel
      obtain ⟨pos',hrest,hget⟩ := hword
      have hround : normalizeRound path startsbpos (pos,s) =
          .inl (pos', normalizeComponent startsbpos s (component.take 255)) := by
        simp only [normalizeRound, hget]
        rfl
      rw [FuelLoop.run_continue _ _ _ _ hround, ih pos' _ (by rw [hrest]; simpa using hfuel), hrest]
      rfl

/-- The three beginnings of a path: what is preserved of it, and what stands before the first slash
that the loop writes. -/
inductive Opening : List Char → List Char → Prop
  | absolute : Opening ['/'] []
  | dotted : Opening ['.','/'] ['.']
  | relative : Opening [] []

/-- The buffer after some components: the stack to which they lead, behind the lead, or still the
preserved beginning while none of them has gone down. -/
def buffer (start lead : List Char) (descended : Bool) (stack : List (List Char)) : List Char :=
  if descended then lead ++ rooted '/' stack else start

theorem rindexFrom_eq (front back : List Char) (c : Char) (hback : c ∉ back) (n : ℕ)
    (hn : n = (front++c::back).length) :
    rindexFrom (front++c::back) c n = some front.length := by
  -- The search passes over `back` from its end.
  have hpass (k : ℕ) (hk : k ≤ back.length) :
      rindexFrom (front++c::back) c (front.length+1+k) = some front.length := by
    induction k with
    | zero => simp [rindexFrom]
    | succ k ih =>
      rw [← Nat.add_assoc, rindexFrom, if_neg, ih (by omega)]
      rw [List.getElem?_append_right (by omega), show front.length+1+k-front.length = k+1 by omega,
        List.getElem?_cons_succ]
      exact fun h => hback (List.mem_of_getElem? h)
  rw [hn, List.length_append, List.length_cons, Nat.add_comm back.length 1, ← Nat.add_assoc]
  exact hpass back.length (Nat.le_refl _)

/-- Nothing of what the loop wrote is left exactly when the buffer is not longer than the
preserved beginning. -/
theorem Opening.length_le {start lead : List Char} (h : Opening start lead) :
    lead.length ≤ start.length ∧ start.length ≤ lead.length+1 := by
  cases h <;> simp

/-- Whether a component is written directly behind the buffer. -/
theorem Opening.slash {start lead : List Char} (h : Opening start lead) (descended : Bool)
    {stack : List (List Char)} (hstack : ∀ component ∈ stack, component ≠ [] ∧ '/' ∉ component)
    (hempty : descended = false → stack = []) :
    (let sb : StringBuffer := ⟨buffer start lead descended stack⟩
     if stringbufferLength sb = 0 ∨ sb.data[stringbufferLength sb - 1]? ≠ some '/' then
       stringbufferAppendString sb ['/'] else sb) = ⟨lead ++ rooted '/' stack ++ ['/']⟩ := by
  cases descended with
  | false =>
    rw [hempty rfl]
    cases h <;> simp [buffer, rooted, stringbufferLength, stringbufferAppendString]
  | true =>
    have hlast : (lead ++ rooted '/' stack).getLast? ≠ some '/' := by
      rcases List.eq_nil_or_concat' stack with rfl | ⟨front,last,rfl⟩
      · cases h <;> simp [rooted]
      · obtain ⟨hne,hwhole⟩ := hstack last (by simp)
        rw [rooted_append, rooted_singleton, ← List.append_assoc, List.getLast?_append,
          List.getLast?_cons, List.getLast?_eq_getLast_of_ne_nil hne]
        simp only [Option.getD_some, Option.some_or, ne_eq, Option.some.injEq]
        exact fun h => hwhole (h ▸ List.getLast_mem hne)
    rw [List.getLast?_eq_getElem?] at hlast
    exact if_pos (Or.inr hlast)

/-- One round on such a buffer is one step of the lexical resolution, and logs nothing. -/
theorem normalizeComponent_eq {start lead : List Char} (h : Opening start lead) (descended : Bool)
    {stack : List (List Char)} (hstack : ∀ component ∈ stack, component ≠ [] ∧ '/' ∉ component)
    (hempty : descended = false → stack = []) (component : List Char) (bugs : ℕ) :
    normalizeComponent start.length ⟨⟨buffer start lead descended stack⟩,bugs⟩ component =
      ⟨⟨buffer start lead (descended || decide (Descends '.' component))
        (resolveStep '.' stack component)⟩, bugs⟩ := by
  unfold normalizeComponent resolveStep
  by_cases hdot : component = ['.']
  · simp [hdot, Descends]
  rw [if_neg hdot, if_neg hdot]
  by_cases hup : component = ['.','.']
  · have hnot : decide (Descends '.' component) = false := by simp [hup, Descends]
    rw [if_pos hup, if_pos hup, hnot, Bool.or_false]
    dsimp only
    rcases List.eq_nil_or_concat' stack with rfl | ⟨front,last,rfl⟩
    · -- Nothing to remove: the buffer is at most as long as at the beginning.
      have hlength : stringbufferLength ⟨buffer start lead descended []⟩ ≤ start.length := by
        cases descended with
        | false => exact Nat.le_refl _
        | true => simpa [stringbufferLength, buffer, rooted] using h.length_le.1
      rw [if_neg (Nat.not_lt.mpr hlength), List.dropLast_nil]
    · -- The last slash of the buffer is the one before the last component.
      cases descended with
      | false => simp at hempty
      | true =>
        obtain ⟨hne,hwhole⟩ := hstack last (by simp)
        have hdata : buffer start lead true (front++[last]) =
            (lead ++ rooted '/' front) ++ '/'::last := by
          simp only [buffer, if_true, rooted_append, rooted_singleton, List.append_assoc]
        have hlong : stringbufferLength ⟨buffer start lead true (front++[last])⟩ >
            start.length := by
          have := h.length_le.2
          have := List.length_pos_iff.mpr hne
          rw [stringbufferLength, hdata, List.length_append, List.length_append, List.length_cons]
          omega
        have hindex : stringbufferRindex ⟨buffer start lead true (front++[last])⟩ '/' =
            some (lead ++ rooted '/' front).length := by
          rw [stringbufferRindex, hdata]
          exact rindexFrom_eq _ _ _ hwhole _ rfl
        rw [if_pos hlong, hindex, List.dropLast_concat]
        simp only [stringbufferSeek, hdata, List.take_left]
        rfl
  · have hdown : decide (Descends '.' component) = true := by simp [Descends, hdot, hup]
    have hdata : buffer start lead true (stack++[component]) =
        lead ++ rooted '/' stack ++ ['/'] ++ component := by
      simp only [buffer, if_true, rooted_append, rooted_singleton, List.append_assoc,
        List.singleton_append]
    rw [if_neg hup, if_neg hup, hdown, Bool.or_true, hdata]
    dsimp only
    rw [h.slash descended hstack hempty, stringbufferAppendString]

/-- The whole loop on such a buffer. -/
theorem foldl_normalizeComponent {start lead : List Char} (h : Opening start lead) (bugs : ℕ)
    (cs : List (List Char)) (hcs : ∀ component ∈ cs, component ≠ [] ∧ '/' ∉ component)
    (descended : Bool) (stack : List (List Char))
    (hstack : ∀ component ∈ stack, component ≠ [] ∧ '/' ∉ component)
    (hempty : descended = false → stack = []) :
    cs.foldl (normalizeComponent start.length) ⟨⟨buffer start lead descended stack⟩,bugs⟩ =
      ⟨⟨buffer start lead (descended || cs.any (Descends '.' ·)) (resolveFrom '.' stack cs)⟩,
        bugs⟩ := by
  induction cs generalizing descended stack with
  | nil => simp [resolveFrom]
  | cons component cs ih =>
    have hfirst := hcs component List.mem_cons_self
    have hrest := fun c hc => hcs c (List.mem_cons_of_mem component hc)
    have hstack' : ∀ c ∈ resolveStep '.' stack component, c ≠ [] ∧ '/' ∉ c := by
      change ∀ c ∈ resolveFrom '.' stack [component], c ≠ [] ∧ '/' ∉ c
      exact resolveFrom_forall '.' hstack (by simpa using fun _ => hfirst)
    have hempty' : (descended || decide (Descends '.' component)) = false →
        resolveStep '.' stack component = [] := by
      intro hnot
      obtain ⟨hnot,hdots⟩ := Bool.or_eq_false_iff.mp hnot
      have hsame : resolveFrom '.' [] [component] = [] :=
        resolveFrom_nil_of_dots '.' (by simpa using hdots)
      rwa [hempty hnot]
    rw [List.foldl_cons, normalizeComponent_eq h descended hstack hempty,
      ih hrest _ _ hstack' hempty', resolveFrom_cons, List.any_cons, Bool.or_assoc]

/-- The components of the path as the loop sees them. -/
def seen (path : List Char) : List (List Char) := (components '/' path).map (List.take 255)

/-- What stands before the first slash that the loop writes. -/
def lead (path : List Char) : List Char :=
  if normalizeStart path = ⟨['.','/']⟩ then ['.'] else []

/-- The text in the buffer after the loop. -/
def normalText (path : List Char) : List Char :=
  buffer (normalizeStart path).data (lead path) ((seen path).any (Descends '.' ·))
    (resolveFrom '.' [] (seen path))

/-- What `path_normalize` returns. -/
def normalForm (path : List Char) : List Char :=
  if normalText path = [] then ['.'] else normalText path

theorem normalizeStart_cases (path : List Char) :
    (path.head? = some '/' ∧ normalizeStart path = ⟨['/']⟩) ∨
    (['.','/'] <+: path ∧ normalizeStart path = ⟨['.','/']⟩) ∨
    (path.head? ≠ some '/' ∧ ¬ ['.','/'] <+: path ∧ normalizeStart path = {}) := by
  rcases path with _ | ⟨c,path⟩
  · exact Or.inr (Or.inr ⟨by simp, by simp, rfl⟩)
  · by_cases hslash : c = '/'
    · exact Or.inl ⟨by simp [hslash],
        by simp [normalizeStart, stringStartswith, stringIsempty, stringbufferAppendString, hslash]⟩
    · by_cases hdot : ['.','/'] <+: c::path
      · refine Or.inr (Or.inl ⟨hdot, ?_⟩)
        obtain ⟨tail,htail⟩ := hdot
        rw [← htail]
        rfl
      · refine Or.inr (Or.inr ⟨by simpa using hslash, hdot, ?_⟩)
        have hnot : ['.','/'].isPrefixOf (c::path) = false := by
          simpa [← List.isPrefixOf_iff_prefix] using hdot
        simp [normalizeStart, stringStartswith, stringIsempty, hnot, Ne.symm hslash]

theorem opening (path : List Char) : Opening (normalizeStart path).data (lead path) := by
  rcases normalizeStart_cases path with ⟨-,h⟩ | ⟨-,h⟩ | ⟨-,-,h⟩ <;> rw [lead, h]
  · exact .absolute
  · exact .dotted
  · exact .relative

theorem mem_seen {path component : List Char} (h : component ∈ seen path) :
    component ≠ [] ∧ '/' ∉ component ∧ component.length < maxBuf := by
  obtain ⟨whole,hwhole,rfl⟩ := List.mem_map.mp h
  obtain ⟨hne,hslash⟩ := of_mem_components '/' hwhole
  refine ⟨by simpa [List.take_eq_nil_iff] using hne,
    fun hs => hslash (List.mem_of_mem_take hs), ?_⟩
  rw [List.length_take, maxBuf]
  omega

/-- `path_normalize` returns, and logs nothing. -/
theorem pathNormalize_eq (path : Option (List Char)) (extra : ℕ) :
    pathNormalize ((components '/' (path.getD [])).length+1+extra) path =
      some ⟨normalForm (path.getD []), 0⟩ := by
  cases path with
  | none => rfl
  | some path =>
    by_cases hempty : path = []
    · subst hempty
      rfl
    · have hrun := normalizeLoop_eq path (normalizeStart path).data.length
        ((components '/' path).length+1+extra) 0 ⟨normalizeStart path,0⟩
        (by rw [List.drop_zero]; omega)
      have hfold := foldl_normalizeComponent (opening path) 0 (seen path)
        (fun c hc => ⟨(mem_seen hc).1,(mem_seen hc).2.1⟩) false [] (by simp) fun _ => rfl
      rw [List.drop_zero] at hrun
      have hloop := hrun.trans (congrArg some hfold)
      rw [Bool.false_or] at hloop
      have hnot : ¬ stringIsempty (some path) = true := by simpa [stringIsempty] using hempty
      simp only [Option.getD_some, pathNormalize, if_neg hnot]
      rw [stringbufferLength, hloop]
      change some (⟨stringbufferFinish (if stringbufferLength ⟨normalText path⟩ = 0 then
        stringbufferAppendString ⟨normalText path⟩ ['.'] else ⟨normalText path⟩),0⟩ : Normalized) = _
      by_cases htext : normalText path = []
      · simp [normalForm, htext, stringbufferFinish, stringbufferLength, stringbufferAppendString]
      · simp [normalForm, htext, stringbufferFinish, stringbufferLength]

/-- `.`, `/`, `./`, or one of the two prefixes with ordinary components behind it, separated by
single slashes. -/
def NormalForm (text : List Char) : Prop :=
  text = ['.'] ∨ text = ['/'] ∨ text = ['.','/'] ∨
    ∃ cs : List (List Char), cs ≠ [] ∧ (∀ component ∈ cs, Ordinary '/' '.' component) ∧
      (text = '/'::['/'].intercalate cs ∨ text = '.' :: '/' :: ['/'].intercalate cs)

theorem mem_resolved {path component : List Char}
    (h : component ∈ resolveFrom '.' [] (seen path)) :
    Ordinary '/' '.' component ∧ component.length < maxBuf := by
  -- The root has no components, and those of the path are neither empty nor overlong.
  refine resolveFrom_forall '.' (P := fun component =>
    Ordinary '/' '.' component ∧ component.length < maxBuf) (by simp) ?_ component h
  exact fun c hc hdown => ⟨⟨(mem_seen hc).1,(mem_seen hc).2.1,hdown⟩,(mem_seen hc).2.2⟩

/-- The result of every path, with the lengths of its components. -/
theorem normalForm_cases (path : List Char) :
    normalForm path = ['.'] ∨ normalForm path = ['/'] ∨ normalForm path = ['.','/'] ∨
      ∃ cs : List (List Char), cs ≠ [] ∧
        (∀ component ∈ cs, Ordinary '/' '.' component ∧ component.length < maxBuf) ∧
        (normalForm path = rooted '/' cs ∨ normalForm path = '.'::rooted '/' cs) := by
  rw [normalForm, normalText]
  generalize hcs : resolveFrom '.' [] (seen path) = cs
  have hmem : ∀ component ∈ cs, Ordinary '/' '.' component ∧ component.length < maxBuf :=
    fun c hc => mem_resolved (hcs ▸ hc)
  have hstart := opening path
  revert hstart
  generalize (normalizeStart path).data = start
  generalize lead path = lead
  intro hstart
  cases (seen path).any (Descends '.' ·) with
  | false => cases hstart <;> simp [buffer]
  | true =>
    by_cases hempty : cs = []
    · subst hempty
      cases hstart <;> simp [buffer, rooted]
    · have hne : rooted '/' cs ≠ [] := by simpa [rooted_eq_nil] using hempty
      refine Or.inr (Or.inr (Or.inr ⟨cs,hempty,hmem,?_⟩))
      cases hstart <;> simp [buffer, hne]

theorem components_dot_rooted {cs : List (List Char)}
    (hcs : ∀ component ∈ cs, component ≠ [] ∧ '/' ∉ component) :
    components '/' ('.'::rooted '/' cs) = ['.']::cs := by
  have hdot : '/' ∉ ['.'] := by decide
  exact components_append_rooted '/' hdot (List.cons_ne_nil _ _) hcs

/-- A path that is ordinary components behind one of the two prefixes stays as it is. -/
theorem normalForm_rooted {cs : List (List Char)} (hne : cs ≠ [])
    (hcs : ∀ component ∈ cs, Ordinary '/' '.' component ∧ component.length < maxBuf) :
    normalForm (rooted '/' cs) = rooted '/' cs ∧
      normalForm ('.'::rooted '/' cs) = '.'::rooted '/' cs := by
  have hwhole : ∀ component ∈ cs, component ≠ [] ∧ '/' ∉ component :=
    fun c hc => ⟨(hcs c hc).1.nonempty,(hcs c hc).1.whole⟩
  have htake : cs.map (List.take 255) = cs := by
    refine (List.map_congr_left fun c hc => ?_).trans (List.map_id cs)
    exact List.take_of_length_le (Nat.le_of_lt_succ (hcs c hc).2)
  have hdown : resolveFrom '.' [] cs = cs := by
    rw [resolveFrom_descends '.' fun c hc => (hcs c hc).1.descends, List.nil_append]
  have hany : cs.any (Descends '.' ·) = true := by
    obtain ⟨c,hc⟩ := List.exists_mem_of_ne_nil cs hne
    exact List.any_eq_true.mpr ⟨c, hc, by simpa using (hcs c hc).1.descends⟩
  have hroot := rooted_eq_intercalate '/' hne
  constructor
  · have hseen : seen (rooted '/' cs) = cs := by
      rw [seen, components_rooted '/' hwhole, htake]
    have hstart : normalizeStart (rooted '/' cs) = ⟨['/']⟩ := by rw [hroot]; rfl
    have htext : normalText (rooted '/' cs) = rooted '/' cs := by
      simp [normalText, hseen, hany, hdown, buffer, lead, hstart]
    rw [normalForm, htext, if_neg (by simpa [rooted_eq_nil] using hne)]
  · have hseen : seen ('.'::rooted '/' cs) = ['.']::cs := by
      rw [seen, components_dot_rooted hwhole, List.map_cons, htake]
      rfl
    have hstart : normalizeStart ('.'::rooted '/' cs) = ⟨['.','/']⟩ := by rw [hroot]; rfl
    have htext : normalText ('.'::rooted '/' cs) = '.'::rooted '/' cs := by
      have hskip : resolveStep '.' [] ['.'] = ([] : List (List Char)) := if_pos rfl
      simp [normalText, hseen, hany, resolveFrom_cons, hskip, hdown, buffer, lead, hstart]
    rw [normalForm, htext, if_neg (by simp)]

/-- Normal forms are fixed. -/
theorem normalForm_normalForm (path : List Char) :
    normalForm (normalForm path) = normalForm path := by
  rcases normalForm_cases path with h | h | h | ⟨cs,hne,hcs,h | h⟩
  · rw [h]; rfl
  · rw [h]; rfl
  · rw [h]; rfl
  · rw [h, (normalForm_rooted hne hcs).1]
  · rw [h, (normalForm_rooted hne hcs).2]

/-- Every path has a normal form, which is one, is not changed by normalizing it again, and is
found without ever missing a slash in the buffer. -/
theorem path_normalize_normal (path : Option (List Char)) : ∃ n text,
    (∀ extra, pathNormalize (n+extra) path = some ⟨text,0⟩) ∧ NormalForm text ∧
      ∃ n', ∀ extra, pathNormalize (n'+extra) (some text) = some ⟨text,0⟩ := by
  refine ⟨(components '/' (path.getD [])).length+1, normalForm (path.getD []),
    pathNormalize_eq path, ?_, (components '/' (normalForm (path.getD []))).length+1,
    fun extra => ?_⟩
  · rcases normalForm_cases (path.getD []) with h | h | h | ⟨cs,hne,hcs,h⟩
    · exact Or.inl h
    · exact Or.inr (Or.inl h)
    · exact Or.inr (Or.inr (Or.inl h))
    · rw [rooted_eq_intercalate '/' hne] at h
      exact Or.inr (Or.inr (Or.inr ⟨cs, hne, fun c hc => (hcs c hc).1, h⟩))
  · have := pathNormalize_eq (some (normalForm (path.getD []))) extra
    rwa [Option.getD_some, normalForm_normalForm] at this

/-- The components that a normalized path names; a leading dot names nothing. -/
def named (text : List Char) : List (List Char) :=
  match components '/' text with
  | ['.']::cs => cs
  | cs => cs

/-- The result is absolute when the path is, and names the components to which the path leads. -/
def Denotes (path text : List Char) : Prop :=
  (text.head? = some '/' ↔ path.head? = some '/') ∧
    named text = resolveFrom '.' [] (components '/' path)

instance (path text : List Char) : Decidable (Denotes path text) :=
  inferInstanceAs (Decidable (_ ∧ _))

/-- When the loop preserves what the path denotes: it begins with a dot and a slash; or it is
absolute, and leads to something or never goes down; or it is any other path and leads nowhere. -/
def Preserved (path : List Char) : Prop :=
  if path.head? = some '/' then
    resolveFrom '.' [] (components '/' path) ≠ [] ∨
      ∀ component ∈ components '/' path, ¬ Descends '.' component
  else ['.','/'] <+: path ∨ resolveFrom '.' [] (components '/' path) = []

/-- The texts that name nothing. -/
theorem named_nothing : named ['.'] = [] ∧ named ['/'] = [] ∧ named ['.','/'] = [] := by decide

theorem named_dot_rooted {cs : List (List Char)}
    (hcs : ∀ component ∈ cs, Ordinary '/' '.' component) : named ('.'::rooted '/' cs) = cs := by
  rw [named, components_dot_rooted fun c hc => ⟨(hcs c hc).nonempty,(hcs c hc).whole⟩]
  rfl

theorem named_rooted {cs : List (List Char)}
    (hcs : ∀ component ∈ cs, Ordinary '/' '.' component) : named (rooted '/' cs) = cs := by
  rw [named, components_rooted '/' fun c hc => ⟨(hcs c hc).nonempty,(hcs c hc).whole⟩]
  cases cs with
  | nil => rfl
  | cons component cs =>
    have hdot := (hcs component List.mem_cons_self).descends.1
    split
    · rename_i heq
      exact absurd (List.cons.inj heq).1 hdot
    · rfl

/-- The normal form of a path without overlong components, by the beginning of the path. -/
theorem denotes_iff {path : List Char}
    (hshort : ∀ component ∈ components '/' path, component.length < maxBuf) :
    Denotes path (normalForm path) ↔ Preserved path := by
  have hseen : seen path = components '/' path := by
    refine (List.map_congr_left fun c hc => ?_).trans (List.map_id _)
    exact List.take_of_length_le (Nat.le_of_lt_succ (hshort c hc))
  have hordinary : ∀ c ∈ resolveFrom '.' [] (components '/' path), Ordinary '/' '.' c :=
    fun c hc => (mem_resolved (hseen ▸ hc)).1
  have hdots : (components '/' path).any (Descends '.' ·) = false ↔
      ∀ component ∈ components '/' path, ¬ Descends '.' component := by
    simp [List.any_eq_false]
  have hnowhere (h : (components '/' path).any (Descends '.' ·) = false) :
      resolveFrom '.' [] (components '/' path) = [] :=
    resolveFrom_nil_of_dots '.' (hdots.mp h)
  have htext : normalText path = buffer (normalizeStart path).data (lead path)
      ((components '/' path).any (Descends '.' ·))
      (resolveFrom '.' [] (components '/' path)) := by rw [normalText, hseen]
  rw [Denotes, Preserved, ← hdots, normalForm, htext]
  generalize (components '/' path).any (Descends '.' ·) = descended at hnowhere
  generalize resolveFrom '.' [] (components '/' path) = stack at hordinary hnowhere
  clear htext hseen hdots
  have hroot (h : stack ≠ []) : (rooted '/' stack).head? = some '/' := by
    rw [rooted_eq_intercalate '/' h]; rfl
  have hnamed := named_rooted hordinary
  have hdotNamed := named_dot_rooted hordinary
  rcases normalizeStart_cases path with ⟨hhead,hstart⟩ | ⟨⟨tail,rfl⟩,hstart⟩ | ⟨hhead,hdot,hstart⟩
  · -- An absolute path loses its slash when the loop goes down and comes back to the root.
    rw [if_pos hhead, hhead]
    have hlead : lead path = [] := by rw [lead, hstart]; rfl
    rw [hlead, hstart]
    cases descended with
    | false => simp [buffer, hnowhere rfl, named_nothing]
    | true =>
      by_cases hs : stack = []
      · simp [buffer, hs, rooted]
      · simp [buffer, hs, rooted_eq_nil, hroot hs, hnamed]
  · -- Behind a dot and a slash nothing is lost.
    have hlead : lead (['.','/']++tail) = ['.'] := by rw [lead, hstart]; rfl
    rw [hlead, hstart]
    cases descended with
    | false => simp [buffer, hnowhere rfl, named_nothing]
    | true => simp [buffer, hdotNamed]
  · -- Any other path gets a slash in front of its first component.
    rw [if_neg hhead]
    have hlead : lead path = [] := by rw [lead, hstart]; rfl
    rw [hlead, hstart]
    cases descended with
    | false => simp [buffer, hnowhere rfl, hhead, hdot, named_nothing]
    | true =>
      by_cases hs : stack = []
      · simp [buffer, hs, rooted, hhead, hdot, named_nothing]
      · simp [buffer, hs, rooted_eq_nil, hroot hs, hhead, hdot]

/-- A loop that is left for every larger bound leaves with the normal form. -/
theorem text_eq_normalForm {path : Option (List Char)} {n : ℕ} {text : List Char}
    (h : ∀ extra, pathNormalize (n+extra) path = some ⟨text,0⟩) :
    text = normalForm (path.getD []) := by
  have hn := h ((components '/' (path.getD [])).length+1)
  rw [Nat.add_comm, pathNormalize_eq path n] at hn
  exact (congrArg Normalized.text (Option.some.inj hn)).symm

/-- `path_normalize` preserves what a path denotes exactly when it begins with a dot and a slash,
when it is absolute and leads to something or never goes down, or when it leads nowhere. -/
theorem path_normalize_preserves_iff (path : Option (List Char))
    (hshort : ∀ component ∈ components '/' (path.getD []), component.length < maxBuf) :
    (∃ n text, (∀ extra, pathNormalize (n+extra) path = some ⟨text,0⟩) ∧
      Denotes (path.getD []) text) ↔ Preserved (path.getD []) := by
  rw [← denotes_iff hshort]
  constructor
  · rintro ⟨n,text,hrun,hdenotes⟩
    rwa [← text_eq_normalForm hrun]
  · exact fun h => ⟨_, _, pathNormalize_eq path, h⟩

theorem path_normalize_preserves_iff_dotted :
    (∃ n text, (∀ extra, pathNormalize (n+extra) (some "./a/../b//c".toList) = some ⟨text,0⟩) ∧
      Denotes "./a/../b//c".toList text) ↔ Preserved "./a/../b//c".toList :=
  path_normalize_preserves_iff (some "./a/../b//c".toList) (by decide)

/-- The documented examples come out with a slash in front, and a path that comes back to the root
without one. -/
theorem path_normalize_not_preserved :
    (pathNormalize 10 (some "foo//bar".toList) = some ⟨"/foo/bar".toList,0⟩ ∧
      pathNormalize 10 (some "foo/foo2/../bar".toList) = some ⟨"/foo/bar".toList,0⟩ ∧
      pathNormalize 10 (some "foo/./bar".toList) = some ⟨"/foo/bar".toList,0⟩ ∧
      pathNormalize 10 (some "/a/..".toList) = some ⟨".".toList,0⟩) ∧
    ¬ ∀ path : Option (List Char),
      (∀ component ∈ components '/' (path.getD []), component.length < maxBuf) →
        ∃ n text, (∀ extra, pathNormalize (n+extra) path = some ⟨text,0⟩) ∧
          Denotes (path.getD []) text := by
  refine ⟨by decide, fun hall => ?_⟩
  obtain ⟨n,text,hrun,hdenotes⟩ := hall (some "foo//bar".toList) (by decide)
  rw [text_eq_normalForm hrun] at hdenotes
  exact absurd hdenotes (by decide)

end LibAtrinik.Path

import LibAtrinik.Logger
import Mathlib.Data.Set.Basic

namespace LibAtrinik.Logging

open LibAtrinik.Path LexicalPath SignedSelection

/-- The level that a name stands for, in any case of its letters. -/
def wordTarget (cp : List Char) : Target (Fin logMax) :=
  if strcasecmp cp "all".toList then .all
  else if h : loggerGetLevel cp < logMax then .one ⟨loggerGetLevel cp, h⟩
  else .unknown

def wordOf (word : List Char) : Word (Fin logMax) := ⟨(wordOper word).1, wordTarget (wordOper word).2⟩

/-- What stands between commas, each cut off at 255 characters. -/
def filterWords (str : List Char) : List (List Char) := (components ',' str).map (List.take 255)

/-- The words with which a text edits a selection; no text has none. -/
def edits (str : Option (List Char)) : List (Word (Fin logMax)) :=
  match str with
  | none => []
  | some str => (filterWords str).map wordOf

/-- The loop handles the words one after the other. -/
theorem filterLoop_eq (str : List Char) (fuel pos : ℕ) (filter : BitVec 64)
    (hfuel : (components ',' (str.drop pos)).length < fuel) :
    FuelLoop.run (filterRound (some str)) fuel (pos, filter) =
      some ((filterWords (str.drop pos)).foldl filterWord filter) := by
  induction fuel generalizing pos filter with
  | zero => omega
  | succ fuel ih =>
    have hword := stringGetWord_spec str pos ',' maxBuf (by decide)
    rw [filterWords]
    cases hc : components ',' (str.drop pos) with
    | nil =>
      rw [hc] at hword
      apply FuelLoop.run_leave
      rw [filterRound, Prod.eta (stringGetWord _ _ _ _ _) |>.symm, hword]
      rfl
    | cons word rest =>
      rw [hc] at hword hfuel
      obtain ⟨pos', hrest, hget⟩ := hword
      have hround : filterRound (some str) (pos, filter) =
          .inl (pos', filterWord filter (word.take 255)) := by
        simp only [filterRound, hget]
        rfl
      rw [FuelLoop.run_continue _ _ _ _ hround, ih pos' _ (by rw [hrest]; simpa using hfuel),
        filterWords, hrest]
      rfl

theorem getLsbD_levelMask {level : ℕ} (h : level < 32) (i : ℕ) :
    (levelMask level).getLsbD i = decide (i = level) := by
  rw [levelMask, ← BitVec.twoPow_eq, BitVec.getLsbD_twoPow]
  by_cases hi : i = level
  · simp [hi, h]
  · simp [hi, Ne.symm hi]

theorem getLsbD_mask {level : ℕ} (h : level < 32) (i : ℕ) :
    ((levelMask level).setWidth 64).getLsbD i = decide (i = level) := by
  rw [BitVec.getLsbD_setWidth, getLsbD_levelMask h]
  by_cases hi : i = level
  · simp [hi]; omega
  · simp [hi]

/-- The complement is taken in 32 bits. -/
theorem getLsbD_notMask {level : ℕ} (h : level < 32) (i : ℕ) :
    ((~~~levelMask level).setWidth 64).getLsbD i = decide (i < 32 ∧ i ≠ level) := by
  rw [BitVec.getLsbD_setWidth, BitVec.getLsbD_not, getLsbD_levelMask h]
  by_cases hi : i < 32
  · have h64 : i < 64 := by omega
    by_cases hl : i = level <;> simp [hi, h64, hl]
  · simp [hi]

/-- What a filter stands for: a bit for each level, and in the other bits whether everything has been
selected at once. The bits from 32 on may be cleared before that is over. -/
structure Represents (filter : BitVec 64) (s : Selection (Fin logMax)) : Prop where
  level : ∀ l : Fin logMax, filter.getLsbD l = true ↔ l ∈ s.chosen
  low : ∀ i, logMax ≤ i → i < 32 → (filter.getLsbD i = true ↔ s.whole)
  high : ∀ i, 32 ≤ i → filter.getLsbD i = true → s.whole

variable {filter : BitVec 64} {s : Selection (Fin logMax)}

theorem represents_everything : Represents (BitVec.allOnes 64) .everything where
  level l := by
    have hl : (l : ℕ) < 64 := Nat.lt_trans l.isLt (by decide)
    rw [BitVec.getLsbD_allOnes]
    simp [hl, Selection.everything]
  low i _ hi := by
    have h64 : i < 64 := by omega
    rw [BitVec.getLsbD_allOnes]
    simp [h64, Selection.everything]
  high _ _ _ := trivial

theorem represents_nothing : Represents 0 .nothing where
  level l := by simp [Selection.nothing]
  low i _ _ := by simp [Selection.nothing]
  high i _ h := by simp at h

/-- No bit is set exactly when nothing is selected and nothing is left of everything. -/
theorem Represents.eq_zero_iff (h : Represents filter s) :
    filter = 0 ↔ s.chosen = ∅ ∧ ¬ s.whole := by
  constructor
  · intro hzero
    have hbit (i : ℕ) : filter.getLsbD i = false := by rw [hzero]; simp
    refine ⟨Set.eq_empty_of_forall_notMem fun l hl => ?_, fun hwhole => ?_⟩
    · rw [← h.level, hbit] at hl
      contradiction
    · rw [← h.low 11 (by decide) (by decide), hbit] at hwhole
      contradiction
  · intro ⟨hchosen, hwhole⟩
    apply BitVec.eq_of_getLsbD_eq
    intro i _
    have hbit : filter.getLsbD i ≠ true := by
      intro hset
      rcases Nat.lt_or_ge i logMax with hl | hl
      · have hmem := (h.level ⟨i, hl⟩).mp hset
        rw [hchosen] at hmem
        exact hmem
      · rcases Nat.lt_or_ge i 32 with hi | hi
        · exact hwhole ((h.low i hl hi).mp hset)
        · exact hwhole (h.high i hi hset)
    simpa using hbit

/-- A change of the levels that leaves the bits behind them, or clears the last of them. -/
theorem Represents.of_levels (h : Represents filter s) {filter' : BitVec 64}
    {chosen : Set (Fin logMax)} (hlevel : ∀ l : Fin logMax, filter'.getLsbD l = true ↔ l ∈ chosen)
    (hlow : ∀ i, logMax ≤ i → i < 32 → filter'.getLsbD i = filter.getLsbD i)
    (hhigh : ∀ i, 32 ≤ i → filter'.getLsbD i = true → filter.getLsbD i = true) :
    Represents filter' { s with chosen := chosen } where
  level := hlevel
  low i hi hi' := by rw [hlow i hi hi']; exact h.low i hi hi'
  high i hi hset := h.high i hi (hhigh i hi hset)

theorem ne_level {i : ℕ} (l : Fin logMax) (h : logMax ≤ i) : i ≠ l := by
  have := l.isLt
  omega

theorem level_lt (l : Fin logMax) : (l : ℕ) < 32 := Nat.lt_trans l.isLt (by decide)

theorem Represents.switch (h : Represents filter s) (l : Fin logMax) :
    Represents (filter ^^^ (levelMask l).setWidth 64) (s.edit ⟨none, .one l⟩) := by
  apply h.of_levels
  · intro l'
    rw [BitVec.getLsbD_xor, getLsbD_mask (level_lt l), Set.mem_ofPred_eq, ← h.level]
    by_cases heq : l' = l
    · simp [heq]
    · simp [heq, Fin.val_inj]
  · intro i hi _
    rw [BitVec.getLsbD_xor, getLsbD_mask (level_lt l)]
    simp [ne_level l hi]
  · intro i hi hset
    have hne := ne_level l (Nat.le_trans (by decide) hi)
    rw [BitVec.getLsbD_xor, getLsbD_mask (level_lt l)] at hset
    simpa [hne] using hset

theorem Represents.remove (h : Represents filter s) (l : Fin logMax) :
    Represents (filter &&& (~~~levelMask l).setWidth 64) (s.edit ⟨some false, .one l⟩) := by
  apply h.of_levels
  · intro l'
    rw [BitVec.getLsbD_and, getLsbD_notMask (level_lt l), Set.mem_sdiff, ← h.level]
    simp [level_lt l', Fin.val_inj]
  · intro i hi hi'
    rw [BitVec.getLsbD_and, getLsbD_notMask (level_lt l)]
    simp [ne_level l hi, hi']
  · -- Nothing is left of these bits.
    intro i hi hset
    rw [BitVec.getLsbD_and, getLsbD_notMask (level_lt l)] at hset
    simp [Nat.not_lt.mpr hi] at hset

theorem Represents.insert (h : Represents filter s) (l : Fin logMax) :
    Represents (filter ||| (levelMask l).setWidth 64) (s.edit ⟨some true, .one l⟩) := by
  apply h.of_levels
  · intro l'
    rw [BitVec.getLsbD_or, getLsbD_mask (level_lt l), Set.mem_insert_iff, ← h.level]
    simp [Fin.val_inj, or_comm]
  · intro i hi _
    rw [BitVec.getLsbD_or, getLsbD_mask (level_lt l)]
    simp [ne_level l hi]
  · intro i hi hset
    have hne := ne_level l (Nat.le_trans (by decide) hi)
    rw [BitVec.getLsbD_or, getLsbD_mask (level_lt l)] at hset
    simpa [hne] using hset

theorem Represents.all (h : Represents filter s) (oper : Option Bool) :
    Represents (if oper.getD (filter = 0) then BitVec.allOnes 64 else 0)
      (s.edit ⟨oper, .all⟩) := by
  have hempty : decide (filter = 0) = true ↔ s.chosen = ∅ ∧ ¬ s.whole := by
    rw [decide_eq_true_iff]
    exact h.eq_zero_iff
  rw [Selection.edit_all s oper hempty]
  by_cases hon : oper.getD (decide (filter = 0)) = true
  · rw [if_pos hon, if_pos hon]
    exact represents_everything
  · rw [if_neg hon, if_neg hon]
    exact represents_nothing

/-- A word does to the bits what it does to the selection. -/
theorem Represents.edit (h : Represents filter s) (word : List Char) :
    Represents (filterWord filter word) (s.edit (wordOf word)) := by
  rw [filterWord, wordOf]
  cases wordOper word with
  | mk oper cp =>
    dsimp only
    rw [wordTarget]
    by_cases hall : strcasecmp cp "all".toList = true
    · rw [if_pos hall, if_pos hall]
      exact h.all oper
    · rw [if_neg hall, if_neg hall]
      by_cases hlevel : loggerGetLevel cp < logMax
      · rw [if_neg (Nat.not_le.mpr hlevel), dif_pos hlevel]
        match oper with
        | none => exact h.switch ⟨_, hlevel⟩
        | some false => exact h.remove ⟨_, hlevel⟩
        | some true => exact h.insert ⟨_, hlevel⟩
      · rw [if_pos (Nat.not_lt.mp hlevel), dif_neg hlevel]
        exact h

theorem Represents.edits (h : Represents filter s) (words : List (List Char)) :
    Represents (words.foldl filterWord filter) (s.edits (words.map wordOf)) := by
  induction words generalizing filter s with
  | nil => exact h
  | cons word words ih => exact ih (h.edit word)

/-- The bits after a whole text. -/
theorem loggerSetFilter_represents (h : Represents filter s) (str : Option (List Char)) :
    ∃ rounds filter', (∀ fuel, rounds ≤ fuel → loggerSetFilter fuel filter str = some filter') ∧
      Represents filter' (s.edits (Logging.edits str)) := by
  cases str with
  | none =>
    refine ⟨1, filter, fun fuel hfuel => ?_, h⟩
    obtain ⟨fuel, rfl⟩ := Nat.exists_eq_add_of_le' hfuel
    exact FuelLoop.run_leave _ _ _ _ rfl
  | some str =>
    refine ⟨(components ',' str).length+1, _, fun fuel hfuel => ?_, h.edits (filterWords str)⟩
    have hloop := filterLoop_eq str fuel 0 filter (by rw [List.drop_zero]; exact hfuel)
    rwa [List.drop_zero] at hloop

/-- Where messages are written, and the selections of levels that are written there. -/
structure Outlets where
  stdout : Selection (Fin logMax)
  logfile : Selection (Fin logMax)
  printed : List (List Char)
  logged : Option (List (List Char))

/-- At first the dumps of packets are not written, and what is about HTTP is only logged. -/
def Outlets.start : Outlets where
  stdout := ⟨{l | l ∉ [logDumptx, logDumprx, logHttp]}, True⟩
  logfile := ⟨{l | l ∉ [logDumptx, logDumprx]}, True⟩
  printed := []
  logged := none

open Classical in
noncomputable def Outlets.call (colors : Bool) (o : Outlets) : Call → Outlets
  | .setFilterStdout str => { o with stdout := o.stdout.edits (edits str) }
  | .setFilterLogfile str => { o with logfile := o.logfile.edits (edits str) }
  | .openLog opened => { o with logged := if opened then some [] else none }
  | .print level message =>
    if h : level < logMax then
      { o with
        printed := o.printed ++
          if ⟨level, h⟩ ∈ o.stdout.chosen then [message.stdoutLine colors level] else []
        logged := o.logged.map (· ++
          if ⟨level, h⟩ ∈ o.logfile.chosen then [message.logfileLine level] else []) }
    else o

/-- The logger writes what the outlets write. -/
structure Simulates (colors : Bool) (s : Logger) (o : Outlets) : Prop where
  stdout : Represents s.filterStdout o.stdout
  logfile : Represents s.filterLogfile o.logfile
  colors : s.colors = colors
  printed : s.printed = o.printed
  logged : s.logFp = o.logged

theorem wanted_iff (filter : BitVec 64) (l : Fin logMax) :
    wanted filter l = true ↔ filter.getLsbD l = true := by
  rw [wanted, decide_eq_true_iff]
  constructor
  · -- Only one bit can be set.
    intro hne
    by_contra hbit
    apply hne
    apply BitVec.eq_of_getLsbD_eq
    intro i _
    rw [BitVec.getLsbD_and, getLsbD_mask (level_lt l)]
    by_cases hi : i = l
    · simpa [hi] using hbit
    · simp [hi]
  · intro hbit hzero
    have hand := congrArg (fun x : BitVec 64 => x.getLsbD l) hzero
    simp only [BitVec.getLsbD_and, getLsbD_mask (level_lt l), hbit] at hand
    simp at hand

theorem loggerPrint_eq (s : Logger) {level : ℕ} (h : level < logMax) (m : Message) :
    loggerPrint s level m =
      { s with
        printed := s.printed ++
          if wanted s.filterStdout level then [m.stdoutLine s.colors level] else []
        logFp := s.logFp.map (· ++
          if wanted s.filterLogfile level then [m.logfileLine level] else []) } := by
  obtain ⟨filterStdout, filterLogfile, colors, printed, logFp⟩ := s
  rw [loggerPrint, if_neg (Nat.not_le.mpr h)]
  dsimp only
  cases hs : wanted filterStdout level <;> cases hl : wanted filterLogfile level <;>
    cases logFp <;> simp [hl]

variable {colors : Bool} {logger : Logger} {o : Outlets}

/-- `logger_print` writes a message to each outlet whose selection has the level. -/
theorem Simulates.print (h : Simulates colors logger o) (level : ℕ) (m : Message) :
    Simulates colors (loggerPrint logger level m) (o.call colors (.print level m)) := by
  classical
  rw [Outlets.call]
  by_cases hlevel : level < logMax
  · rw [loggerPrint_eq _ hlevel, dif_pos hlevel]
    have hstdout := (wanted_iff logger.filterStdout ⟨level, hlevel⟩).trans (h.stdout.level _)
    have hlogfile := (wanted_iff logger.filterLogfile ⟨level, hlevel⟩).trans (h.logfile.level _)
    refine ⟨h.stdout, h.logfile, h.colors, ?_, ?_⟩
    · dsimp only
      rw [h.printed, h.colors]
      exact congrArg _ (if_congr hstdout rfl rfl)
    · dsimp only
      rw [h.logged, if_congr hlogfile rfl rfl]
  · rw [loggerPrint, if_pos (Nat.not_lt.mp hlevel), dif_neg hlevel]
    exact h

/-- One call, in which the loop over the words ends. -/
theorem Simulates.call (h : Simulates colors logger o) (call : Call) :
    ∃ rounds logger', (∀ fuel, rounds ≤ fuel → loggerCall fuel logger call = some logger') ∧
      Simulates colors logger' (o.call colors call) := by
  cases call with
  | setFilterStdout str =>
    obtain ⟨rounds, filter', hrun, hfilter⟩ := loggerSetFilter_represents h.stdout str
    refine ⟨rounds, { logger with filterStdout := filter' }, fun fuel hfuel => ?_,
      hfilter, h.logfile, h.colors, h.printed, h.logged⟩
    rw [loggerCall, hrun fuel hfuel]
    rfl
  | setFilterLogfile str =>
    obtain ⟨rounds, filter', hrun, hfilter⟩ := loggerSetFilter_represents h.logfile str
    refine ⟨rounds, { logger with filterLogfile := filter' }, fun fuel hfuel => ?_,
      h.stdout, hfilter, h.colors, h.printed, h.logged⟩
    rw [loggerCall, hrun fuel hfuel]
    rfl
  | openLog opened => exact ⟨0, _, fun fuel _ => rfl, { h with logged := rfl }⟩
  | print level message => exact ⟨0, _, fun fuel _ => rfl, h.print level message⟩

/-- Many calls, by induction on them. -/
theorem Simulates.calls (h : Simulates colors logger o) (calls : List Call) :
    ∃ rounds logger', (∀ fuel, rounds ≤ fuel →
        calls.foldlM (loggerCall fuel) logger = some logger') ∧
      Simulates colors logger' (calls.foldl (Outlets.call colors) o) := by
  induction calls generalizing logger o with
  | nil => exact ⟨0, logger, fun fuel _ => rfl, h⟩
  | cons call calls ih =>
    obtain ⟨rounds, logger', hcall, h'⟩ := h.call call
    obtain ⟨rounds', logger'', hcalls, h''⟩ := ih h'
    refine ⟨max rounds rounds', logger'', fun fuel hfuel => ?_, h''⟩
    rw [List.foldlM_cons, hcall fuel (by omega)]
    exact hcalls fuel (by omega)

/-- The filters that `toolkit_logger_init` sets. -/
theorem loggerInit_simulates (colors : Bool) :
    ∃ rounds logger, (∀ fuel, rounds ≤ fuel → loggerInit fuel colors = some logger) ∧
      Simulates colors logger .start := by
  have hempty : Simulates colors ⟨0, 0, colors, [], none⟩ ⟨.nothing, .nothing, [], none⟩ :=
    ⟨represents_nothing, represents_nothing, rfl, rfl, rfl⟩
  obtain ⟨rounds, logger, hrun, h⟩ := hempty.calls
    [.setFilterStdout (some "all,-dumptx,-dumprx,-http".toList),
      .setFilterLogfile (some "all,-dumptx,-dumprx".toList)]
  refine ⟨rounds, logger, fun fuel hfuel => ?_, ?_⟩
  · have hboth := hrun fuel hfuel
    simpa [loggerInit] using hboth
  · have hstdout : edits (some "all,-dumptx,-dumprx,-http".toList) =
        ⟨none, .all⟩ :: [logDumptx, logDumprx, logHttp].map fun l => ⟨some false, .one l⟩ := by
      decide
    have hlogfile : edits (some "all,-dumptx,-dumprx".toList) =
        ⟨none, .all⟩ :: [logDumptx, logDumprx].map fun l => ⟨some false, .one l⟩ := by decide
    rw [List.foldl_cons, List.foldl_cons, List.foldl_nil, Outlets.call, Outlets.call] at h
    dsimp only at h
    rw [hstdout, hlogfile, Selection.edits_all_but, Selection.edits_all_but] at h
    exact h

/-- The logger after some calls, and the outlets that it simulates. -/
theorem loggerRun_simulates (colors : Bool) (calls : List Call) :
    ∃ rounds logger, (∀ fuel, rounds ≤ fuel → loggerRun fuel colors calls = some logger) ∧
      Simulates colors logger (calls.foldl (Outlets.call colors) .start) := by
  obtain ⟨rounds, logger, hinit, h⟩ := loggerInit_simulates colors
  obtain ⟨rounds', logger', hcalls, h'⟩ := h.calls calls
  refine ⟨max rounds rounds', logger', fun fuel hfuel => ?_, h'⟩
  rw [loggerRun, hinit fuel (by omega)]
  exact hcalls fuel (by omega)

/-- However the filters are edited and messages are printed, the loops end, each outlet gets exactly
the messages whose levels are selected for it at that time, in their order, and the log file those
since it was opened. -/
theorem logger_writes_selected (colors : Bool) (calls : List Call) :
    ∃ rounds logger, (∀ fuel, rounds ≤ fuel → loggerRun fuel colors calls = some logger) ∧
      logger.printed = (calls.foldl (Outlets.call colors) .start).printed ∧
      logger.logFp = (calls.foldl (Outlets.call colors) .start).logged := by
  obtain ⟨rounds, logger, hrun, h⟩ := loggerRun_simulates colors calls
  exact ⟨rounds, logger, hrun, h.printed, h.logged⟩

/-- After any calls: when every word of a text has a sign, the last word that is about a level
decides whether it is printed from then on, and a level that no word is about stays as it was. -/
theorem logger_last_word_decides (colors : Bool) (calls : List Call) (str : List Char)
    (level : Fin logMax) (hsigned : ∀ word ∈ filterWords str, (wordOper word).1 ≠ none) :
    ∃ rounds logger logger',
      (∀ fuel, rounds ≤ fuel → loggerRun fuel colors calls = some logger ∧
        loggerCall fuel logger (.setFilterStdout (some str)) = some logger') ∧
      wanted logger'.filterStdout level =
        (lastSign (edits (some str)) level).getD (wanted logger.filterStdout level) := by
  obtain ⟨rounds, logger, hrun, h⟩ := loggerRun_simulates colors calls
  obtain ⟨rounds', logger', hcall, h'⟩ := h.call (.setFilterStdout (some str))
  refine ⟨max rounds rounds', logger, logger', fun fuel hfuel => ⟨hrun fuel (by omega),
    hcall fuel (by omega)⟩, ?_⟩
  have hwords : ∀ w ∈ edits (some str), w.sign ≠ none := by
    intro w hw
    obtain ⟨word, hword, rfl⟩ := List.mem_map.mp hw
    exact hsigned word hword
  have hbefore := (wanted_iff logger.filterStdout level).trans (h.stdout.level level)
  have hafter := (wanted_iff logger'.filterStdout level).trans (h'.stdout.level level)
  exact Bool.eq_iff_iff.mpr (hafter.trans (Selection.mem_edits_iff_last _ _ hwords hbefore))

/-- A level that is deselected, and then selected again under its name in small letters. -/
theorem logger_last_word_decides_again :
    (∀ word ∈ filterWords "-ERROR,+error".toList, (wordOper word).1 ≠ none) ∧
    ∃ rounds logger logger',
      (∀ fuel, rounds ≤ fuel → loggerRun fuel false [] = some logger ∧
        loggerCall fuel logger (.setFilterStdout (some "-ERROR,+error".toList)) = some logger') ∧
      wanted logger'.filterStdout logError =
        (lastSign (edits (some "-ERROR,+error".toList)) logError).getD
          (wanted logger.filterStdout logError) :=
  ⟨by decide, logger_last_word_decides false [] "-ERROR,+error".toList logError (by decide)⟩

end LibAtrinik.Logging

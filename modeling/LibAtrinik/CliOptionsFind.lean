import LibAtrinik.CliOptions

namespace LibAtrinik.CliOptions

/-- The option that was found, if any; when its argument is missing the program exits because of
it. -/
def Found.cli : Found → Option ℕ
  | .option cli _ _ => some cli
  | .requiresArgument cli => some cli
  | .notFound => none

/-- `--name` or `--name=value`. -/
def longOption (name : List Char) (value : Option (List Char)) : List Char :=
  ['-','-'] ++ name ++ value.elim [] fun value => '='::value

/-- What is returned for an option whose name begins with the given one. -/
def longFound {H : Type} (idx : ℕ) (value : Option (List Char)) (i : ℕ) (cli : Clioption H) :
    Found :=
  if cli.argument ∧ (value = none ∨ value = some []) then .requiresArgument i
  else .option i idx value

section Long

variable {H : Type} {argv : List (List Char)} {idx : ℕ} {name : List Char}
  {value : Option (List Char)}

theorem parseFindRound_long (hargv : argv.getD idx [] = longOption name value) (hname : '=' ∉ name)
    (i : ℕ) (cli : Clioption H) :
    parseFindRound argv idx i cli =
      if name <+: cli.name then some (longFound idx value i cli) else none := by
  have hdashes : strncmpEq (longOption name value) ['-','-'] 2 = true := rfl
  have harg : (longOption name value).drop 2 =
      name ++ value.elim [] fun value => '='::value := rfl
  have hpass : ∀ c ∈ name, decide (c ≠ '=') = true := by
    intro c hc
    have hne : c ≠ '=' := fun h => hname (h ▸ hc)
    simpa using hne
  -- The first equals sign is the one behind the name.
  have hend : ((name ++ value.elim [] fun value => '='::value).takeWhile (· ≠ '=')) = name := by
    rw [List.takeWhile_append_of_pos hpass]
    cases value <;> simp
  have hvalue : (if '=' ∈ name ++ value.elim [] fun value => '='::value then
      some ((name ++ value.elim [] fun value => '='::value).drop (name.length+1)) else none) =
        value := by
    cases value with
    | none => simpa using hname
    | some value =>
      rw [Option.elim_some, if_pos (by simp), List.drop_append, List.drop_of_length_le (by omega)]
      simp
  have hcompare : strncmpEq cli.name (name ++ value.elim [] fun value => '='::value) name.length =
      true ↔ name <+: cli.name := by
    rw [strncmpEq, List.take_left, decide_eq_true_eq, List.prefix_iff_eq_take, eq_comm]
  rw [parseFindRound]
  dsimp only
  rw [hargv, if_pos hdashes, harg, hend, hvalue]
  by_cases hbegins : name <+: cli.name
  · rw [if_pos (hcompare.mpr hbegins), if_pos hbegins, longFound]
    split <;> rfl
  · rw [if_neg (mt hcompare.mp hbegins), if_neg hbegins]

/-- The loop finds the first option whose name begins with the given one. -/
theorem parseFindFrom_long (hargv : argv.getD idx [] = longOption name value)
    (hname : '=' ∉ name) (i : ℕ) (clioptions : List (Clioption H)) :
    (parseFindFrom argv idx i clioptions = .notFound ∧
      ∀ cli ∈ clioptions, ¬ name <+: cli.name) ∨
    ∃ j cli, clioptions[j]? = some cli ∧ name <+: cli.name ∧
      (∀ k < j, ∀ other, clioptions[k]? = some other → ¬ name <+: other.name) ∧
      parseFindFrom argv idx i clioptions = longFound idx value (i+j) cli := by
  induction clioptions generalizing i with
  | nil => exact Or.inl ⟨rfl, by simp⟩
  | cons cli clioptions ih =>
    have hround := parseFindRound_long hargv hname i cli
    by_cases hbegins : name <+: cli.name
    · rw [if_pos hbegins] at hround
      refine Or.inr ⟨0, cli, rfl, hbegins, by simp, ?_⟩
      simp only [parseFindFrom, hround, Nat.add_zero]
    · rw [if_neg hbegins] at hround
      have hnext : parseFindFrom argv idx i (cli::clioptions) =
          parseFindFrom argv idx (i+1) clioptions := by rw [parseFindFrom, hround]
      rw [hnext]
      rcases ih (i+1) with ⟨hnone,hall⟩ | ⟨j,found,hj,hfound,hbefore,heq⟩
      · exact Or.inl ⟨hnone, List.forall_mem_cons.mpr ⟨hbegins,hall⟩⟩
      · refine Or.inr ⟨j+1, found, by simpa using hj, hfound, fun k hk other hother => ?_, ?_⟩
        · cases k with
          | zero =>
            rw [List.getElem?_cons_zero, Option.some.injEq] at hother
            rwa [← hother]
          | succ k => exact hbefore k (by omega) other (by simpa using hother)
        · rw [heq, Nat.add_assoc, Nat.add_comm 1]

end Long

theorem longFound_cli (idx : ℕ) (value : Option (List Char)) (i : ℕ) (cli : Clioption) :
    (longFound idx value i cli).cli = some i := by
  rw [longFound]
  split <;> rfl

theorem clioptionsCreate_eq (name : List Char) (handlerFunc : Option Handler) (s : State) :
    clioptionsCreate name handlerFunc s =
      if ∃ cli ∈ s.clioptions, cli.name = name then .error .exit s
      else .ok s.clioptions.length
        { s with clioptions := s.clioptions ++ [{ name := name, handlerFunc := handlerFunc }] } := by
  change (ite (∃ cli ∈ s.clioptions, cli.name = name) _ _ : Cli ℕ) s = _
  by_cases hdup : ∃ cli ∈ s.clioptions, cli.name = name
  · rw [if_pos hdup, if_pos hdup]
    rfl
  · rw [if_neg hdup, if_neg hdup]
    rfl

/-- The options with pairwise different names that `clioptions_create` registers. -/
theorem clioptionsCreate_distinct (name : List Char) (handlerFunc : Option Handler) (s : State)
    (h : (s.clioptions.map Clioption.name).Nodup) :
    ∀ i s', clioptionsCreate name handlerFunc s = .ok i s' →
      (s'.clioptions.map Clioption.name).Nodup := by
  intro i s' hok
  rw [clioptionsCreate_eq] at hok
  by_cases hdup : ∃ cli ∈ s.clioptions, cli.name = name
  · rw [if_pos hdup] at hok
    cases hok
  · rw [if_neg hdup] at hok
    cases hok
    simpa [List.nodup_append, h] using fun cli hcli heq => hdup ⟨cli, hcli, heq⟩

/-- An option is looked up by its whole name exactly when every option with a longer name that
begins with it was registered after it. -/
theorem parse_find_whole_name_iff (clioptions : List Clioption) (argv : List (List Char)) (idx : ℕ)
    (name : List Char) (value : Option (List Char)) (hname : '=' ∉ name)
    (hargv : argv[idx]? = some (longOption name value)) :
    (clioptionsParseFind clioptions argv idx).cli =
        clioptions.findIdx? (fun cli => cli.name = name) ↔
      ∀ (j : ℕ) (other : Clioption), clioptions[j]? = some other → name <+: other.name →
        other.name ≠ name →
        ∃ i < j, ∃ cli : Clioption, clioptions[i]? = some cli ∧ cli.name = name := by
  have hget : argv.getD idx [] = longOption name value := by rw [List.getD, hargv]; rfl
  rw [clioptionsParseFind]
  rcases parseFindFrom_long hget hname 0 clioptions with ⟨hnone,hall⟩ |
    ⟨j,cli,hj,hbegins,hbefore,heq⟩
  · -- Nothing begins with the given name.
    have hno : clioptions.findIdx? (fun cli => cli.name = name) = none := by
      rw [List.findIdx?_eq_none_iff]
      intro cli hcli
      have hne : cli.name ≠ name := fun h => hall cli hcli (h ▸ List.prefix_refl _)
      simpa using hne
    rw [hnone, hno]
    refine iff_of_true rfl fun j other hother hlonger => ?_
    exact absurd hlonger (hall other (List.mem_of_getElem? hother))
  · rw [heq, longFound_cli, Nat.zero_add, eq_comm, List.findIdx?_eq_some_iff_getElem]
    obtain ⟨hlt,hcli⟩ := List.getElem?_eq_some_iff.mp hj
    constructor
    · rintro ⟨_,hfirst,-⟩ k other hk hlonger hne
      have hexact : cli.name = name := by simpa [hcli] using hfirst
      refine ⟨j, ?_, cli, hj, hexact⟩
      rcases Nat.lt_trichotomy j k with hlt | rfl | hgt
      · exact hlt
      · rw [hj, Option.some.injEq] at hk
        exact absurd (hk ▸ hexact) hne
      · exact absurd hlonger (hbefore k hgt other hk)
    · intro hlater
      have hexact : cli.name = name := by
        by_contra hne
        obtain ⟨i,hi,found,hfound,hname⟩ := hlater j cli hj hbegins hne
        exact hbefore i hi found hfound (hname ▸ List.prefix_refl _)
      refine ⟨hlt, by rw [hcli]; simpa using hexact, fun i hi => ?_⟩
      have hi' := List.getElem?_eq_getElem (Nat.lt_trans hi hlt)
      have hne : (clioptions.get ⟨i,Nat.lt_trans hi hlt⟩).name ≠ name :=
        fun h => hbefore i hi _ hi' (h ▸ List.prefix_refl _)
      simpa using hne

/-- The options of the library, in the order of their registration. -/
def libraryOptions : List Clioption :=
  [{ name := "config".toList, argument := true, changeable := true },
    { name := "help".toList, shortName := some ['h'] },
    { name := "logfile".toList, argument := true, changeable := true },
    { name := "logger_filter_stdout".toList, argument := true, changeable := true },
    { name := "logger_filter_logfile".toList, argument := true, changeable := true }]

theorem parse_find_whole_name_iff_logfile :
    (clioptionsParseFind libraryOptions ["server".toList, "--logfile=a=b".toList] 1).cli =
        libraryOptions.findIdx? (fun cli => cli.name = "logfile".toList) ↔
      ∀ (j : ℕ) (other : Clioption), libraryOptions[j]? = some other →
        "logfile".toList <+: other.name → other.name ≠ "logfile".toList →
        ∃ i < j, ∃ cli : Clioption, libraryOptions[i]? = some cli ∧ cli.name = "logfile".toList :=
  parse_find_whole_name_iff libraryOptions ["server".toList, "--logfile=a=b".toList] 1
    "logfile".toList (some "a=b".toList) (by decide) rfl

/-- `--log=x` finds an option although none has this name. -/
theorem parse_find_abbreviated :
    ¬ ∀ (clioptions : List Clioption) (argv : List (List Char)) (idx : ℕ) (name : List Char)
      (value : Option (List Char)), (clioptions.map Clioption.name).Nodup → '=' ∉ name →
      argv[idx]? = some (longOption name value) →
      (clioptionsParseFind clioptions argv idx).cli =
        clioptions.findIdx? (fun cli => cli.name = name) := by
  intro hall
  have := hall libraryOptions ["server".toList, "--log=x".toList] 1 "log".toList
    (some ['x']) (by decide) (by decide) rfl
  exact absurd this (by decide)

end LibAtrinik.CliOptions

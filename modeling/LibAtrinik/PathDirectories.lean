import LibAtrinik.FileTree
import LibAtrinik.PathFiles

namespace LibAtrinik.PathDirectories

open FileTree

abbrev Name := List Char
abbrev FileSystem := FileTree.Tree Name

/-- The parts of a path between the slashes. -/
def components : List Char → List Name
  | [] => [[]]
  | c :: path =>
    if c = '/' then [] :: components path
    else
      match components path with
      | [] => [[c]]
      | component :: rest => (c :: component) :: rest

def stepOf (component : Name) : Option (Step Name) :=
  if component = [] then none
  else if component = ['.'] then some .stay
  else if component = ['.', '.'] then some .up
  else some (.down component)

def steps (path : List Char) : List (Step Name) := (components path).filterMap stepOf

/-- Where a path starts from. -/
def startOf (cwd : List Name) (path : List Char) : List Name :=
  if path.head? = some '/' then [] else cwd

/-- The loop of `path_ensure_directories`, with what is in front of `cp`. It is left early when
`mkdir` or `stat` fails, or there is no directory. `limit` is the number of links that the system
follows in one path. -/
def ensureLoop (limit : ℕ) (allowed : List Name → Bool) (cwd : List Name) (fs : FileSystem)
    (front : List Char) : List Char → FileSystem × Bool
  | [] => (fs, true)
  | c :: rest =>
    if c = '/' ∧ front ≠ [] then
      match fs.make limit allowed (startOf cwd front) (steps front) with
      | none => (fs, false)
      | some fs => ensureLoop limit allowed cwd fs (front ++ [c]) rest
    else ensureLoop limit allowed cwd fs (front ++ [c]) rest

/-- The file system afterwards, and whether nothing was logged. The path is cut to what fits into a
buffer of `maxPathLen` bytes. -/
def pathEnsureDirectories (maxPathLen limit : ℕ) (allowed : List Name → Bool) (cwd : List Name)
    (fs : FileSystem) (path : Option (List Char)) : FileSystem × Bool :=
  match path with
  | none => (fs, true)
  | some path =>
    if path = [] then (fs, true)
    else ensureLoop limit allowed cwd fs [] (path.take (maxPathLen-1))

variable {limit : ℕ} {allowed : List Name → Bool} {cwd : List Name} {fs fs' : FileSystem}
  {path front rest : List Char}

theorem components_ne_nil (path : List Char) : components path ≠ [] := by
  cases path with
  | nil => exact nofun
  | cons c path =>
    unfold components
    split_ifs
    · exact nofun
    · cases components path <;> exact nofun

theorem components_word {word : List Char} (h : '/' ∉ word) : components word = [word] := by
  induction word with
  | nil => rfl
  | cons c word ih =>
    rw [List.mem_cons, not_or] at h
    unfold components
    rw [if_neg (Ne.symm h.1), ih h.2]

theorem components_append (front : List Char) {word : List Char} (h : '/' ∉ word) :
    components (front ++ '/' :: word) = components front ++ [word] := by
  induction front with
  | nil =>
    show (if ('/' : Char) = '/' then [] :: components word else _) = _
    rw [if_pos rfl, components_word h]
    rfl
  | cons c front ih =>
    rw [List.cons_append, components, ih, components]
    by_cases hc : c = '/'
    · rw [if_pos hc, if_pos hc]
      rfl
    · rw [if_neg hc, if_neg hc]
      cases hcomponents : components front with
      | nil => exact absurd hcomponents (components_ne_nil front)
      | cons component rest => rfl

theorem steps_word {word : List Char} (h : '/' ∉ word) : steps word = (stepOf word).toList := by
  unfold steps
  rw [components_word h]
  cases hstep : stepOf word <;> simp [hstep]

theorem steps_append (front : List Char) {word : List Char} (h : '/' ∉ word) :
    steps (front ++ '/' :: word) = steps front ++ (stepOf word).toList := by
  unfold steps
  rw [components_append front h, List.filterMap_append]
  cases hstep : stepOf word <;> simp [hstep]

/-- The directory of the path exists. -/
def Exists (limit : ℕ) (cwd : List Name) (fs : FileSystem) (path : List Char) : Prop :=
  fs.Directory limit (startOf cwd path) (steps path)

/-- `front` comes before a slash that is not the first character. -/
def Before (front path : List Char) : Prop := front ≠ [] ∧ ∃ rest, path = front ++ '/' :: rest

/-- All directories before a slash of the path exist. -/
def AllExist (limit : ℕ) (cwd : List Name) (fs : FileSystem) (path : List Char) : Prop :=
  ∀ front, Before front path → Exists limit cwd fs front

theorem before_concat {f : List Char} {c : Char} (h : Before f (front ++ [c])) :
    Before f front ∨ (f = front ∧ c = '/') := by
  obtain ⟨hne, rest, heq⟩ := h
  rcases List.eq_nil_or_concat rest with rfl | ⟨rest, d, rfl⟩
  · obtain ⟨hfront, hc⟩ := List.append_inj' heq rfl
    exact Or.inr ⟨hfront.symm, List.singleton_inj.mp hc⟩
  · rw [List.concat_eq_append, ← List.cons_append, ← List.append_assoc] at heq
    exact Or.inl ⟨hne, rest, (List.append_inj' heq rfl).1⟩

/-- The steps of a path are those up to its last slash, and one more or none. -/
theorem AllExist.parent (h : AllExist limit cwd fs front) (hcwd : fs.entry cwd = some .directory) :
    ∃ before last, steps front = before ++ Option.toList last ∧
      fs.Directory limit (startOf cwd front) before := by
  have hstart : fs.Directory limit (startOf cwd front) [] := by
    refine ⟨_, limit, fs.walk_nil limit _, ?_⟩
    unfold startOf
    split_ifs
    · exact fs.root
    · exact hcwd
  rcases Path.last_slash front with hword | ⟨f, word, rfl, hword⟩
  · exact ⟨[], stepOf front, steps_word hword, hstart⟩
  · refine ⟨steps f, stepOf word, steps_append f hword, ?_⟩
    cases f with
    | nil => exact hstart
    | cons c f => exact h (c :: f) ⟨nofun, word, rfl⟩

/-- What becomes of the directory in front of a slash. -/
theorem AllExist.make (h : AllExist limit cwd fs front) (hcwd : fs.entry cwd = some .directory)
    (allowed : List Name → Bool) :
    (∃ fs', fs.make limit allowed (startOf cwd front) (steps front) = some fs' ∧
      fs.Adds fs' limit (startOf cwd front) (steps front)) ∨
    fs.make limit allowed (startOf cwd front) (steps front) = none ∧
      fs.Blocked limit allowed (startOf cwd front) (steps front) := by
  obtain ⟨before, last, hsteps, hd⟩ := h.parent hcwd
  rw [hsteps]
  cases last with
  | none =>
    rw [Option.toList_none, List.append_nil]
    exact Or.inl ⟨fs, hd.make allowed, .refl fs, hd, fun _ hno hsome => absurd hno hsome⟩
  | some step => exact fs.make_concat allowed step hd

/-- What `path_ensure_directories` comes to. -/
structure Ensured (limit : ℕ) (allowed : List Name → Bool) (cwd : List Name) (fs : FileSystem)
    (path : List Char) (r : FileSystem × Bool) : Prop where
  keeps : fs.Extends r.1
  new : ∀ place, fs.entry place = none → r.1.entry place ≠ none →
    r.1.entry place = some .directory ∧ ∃ front left, Before front path ∧
      r.1.walk limit (startOf cwd front) (steps front) = some (place, left)
  exist : r.2 = true → AllExist limit cwd r.1 path
  stopped : r.2 = false → ∃ front, Before front path ∧
    r.1.Blocked limit allowed (startOf cwd front) (steps front)

theorem ensureLoop_ensured (hcwd : fs.entry cwd = some .directory)
    (h : AllExist limit cwd fs front) :
    Ensured limit allowed cwd fs (front ++ rest) (ensureLoop limit allowed cwd fs front rest) := by
  induction rest generalizing fs front with
  | nil =>
    rw [List.append_nil]
    exact ⟨.refl fs, fun _ hno hsome => absurd hno hsome, fun _ => h, nofun⟩
  | cons c rest ih =>
    have hpath : front ++ c :: rest = front ++ [c] ++ rest := by simp
    unfold ensureLoop
    by_cases hslash : c = '/' ∧ front ≠ []
    · rw [if_pos hslash, hpath]
      have hhere : Before front (front ++ [c] ++ rest) :=
        ⟨hslash.2, rest, by rw [hslash.1]; simp⟩
      rcases h.make hcwd allowed with ⟨fs', hmake, hadds⟩ | ⟨hmake, hblocked⟩
      · rw [hmake]
        have hall : AllExist limit cwd fs' (front ++ [c]) := by
          intro f hf
          rcases before_concat hf with hf | ⟨rfl, _⟩
          · exact hadds.keeps.directory (h f hf)
          · exact hadds.directory
        have hrest := ih (hadds.keeps _ _ hcwd) hall
        refine ⟨hadds.keeps.trans hrest.keeps, fun place hno hsome => ?_, hrest.exist,
          hrest.stopped⟩
        -- it was made here, or later
        by_cases hmade : fs'.entry place = none
        · exact hrest.new place hmade hsome
        · obtain ⟨hdir, left, hwalk⟩ := hadds.new place hno hmade
          exact ⟨hrest.keeps _ _ hdir, front, left, hhere, hrest.keeps.walk hwalk⟩
      · rw [hmake]
        exact ⟨.refl fs, fun _ hno hsome => absurd hno hsome, nofun,
          fun _ => ⟨front, hhere, hblocked⟩⟩
    · rw [if_neg hslash, hpath]
      apply ih hcwd
      intro f hf
      rcases before_concat hf with hf | ⟨rfl, hc⟩
      · exact h f hf
      · exact absurd ⟨hc, hf.1⟩ hslash

theorem ensureLoop_of_exist (h : AllExist limit cwd fs (front ++ rest)) :
    ensureLoop limit allowed cwd fs front rest = (fs, true) := by
  induction rest generalizing front with
  | nil => rfl
  | cons c rest ih =>
    rw [show front ++ c :: rest = front ++ [c] ++ rest by simp] at h
    unfold ensureLoop
    by_cases hslash : c = '/' ∧ front ≠ []
    · have hhere : Exists limit cwd fs front := h front ⟨hslash.2, rest, by rw [hslash.1]; simp⟩
      rw [if_pos hslash, hhere.make allowed]
      exact ih h
    · rw [if_neg hslash]
      exact ih h

theorem ensured (hcwd : fs.entry cwd = some .directory) (maxPathLen : ℕ) (path : List Char) :
    Ensured limit allowed cwd fs (path.take (maxPathLen-1))
      (pathEnsureDirectories maxPathLen limit allowed cwd fs (some path)) := by
  have hnone : AllExist limit cwd fs [] := by
    rintro front ⟨hne, rest, heq⟩
    cases front with
    | nil => exact absurd rfl hne
    | cons c front => cases heq
  unfold pathEnsureDirectories
  dsimp only
  split_ifs with hempty
  · rw [hempty, List.take_nil]
    exact ⟨.refl fs, fun _ hno hsome => absurd hno hsome, fun _ => hnone, nofun⟩
  · exact ensureLoop_ensured hcwd hnone

/-- Nothing is lost. Only directories are made, where the path leads up to one of its slashes. All
of these are there in the end, unless there is a file in the place of one, or a link that cannot be
followed, or one may not be made; a second call then changes nothing. Of a path that does not fit
into the buffer, only the beginning counts. -/
theorem path_ensures_directories (maxPathLen limit : ℕ) (allowed : List Name → Bool)
    (cwd : List Name) (fs : FileSystem) (hcwd : fs.entry cwd = some .directory)
    (path : List Char) :
    let r := pathEnsureDirectories maxPathLen limit allowed cwd fs (some path)
    let buf := path.take (maxPathLen-1)
    fs.Extends r.1 ∧
    (∀ place, fs.entry place = none → r.1.entry place ≠ none →
      r.1.entry place = some .directory ∧ ∃ front left, Before front buf ∧
        r.1.walk limit (startOf cwd front) (steps front) = some (place, left)) ∧
    (r.2 = true → AllExist limit cwd r.1 buf ∧
      pathEnsureDirectories maxPathLen limit allowed cwd r.1 (some path) = r) ∧
    (r.2 = false ↔ ∃ front, Before front buf ∧
      r.1.Blocked limit allowed (startOf cwd front) (steps front)) := by
  intro r buf
  have h : Ensured limit allowed cwd fs buf r := ensured hcwd maxPathLen path
  refine ⟨h.keeps, h.new, fun hok => ⟨h.exist hok, ?_⟩, h.stopped, ?_⟩
  · have hagain : pathEnsureDirectories maxPathLen limit allowed cwd r.1 (some path) =
        (r.1, true) := by
      unfold pathEnsureDirectories
      dsimp only
      split_ifs
      · rfl
      · exact ensureLoop_of_exist (h.exist hok)
    rw [hagain, ← hok]
  · rintro ⟨front, hfront, hblocked⟩
    by_contra hok
    exact hblocked.not_directory (h.exist (by simpa using hok) front hfront)

/-- Links `a` to `/d`, which is missing, and `b` to `.`. -/
def linkSystem : FileSystem where
  entry place :=
    if place = [] then some .directory
    else if place = [['a']] then some (.link true [.down ['d']])
    else if place = [['b']] then some (.link false [.stay])
    else none
  root := rfl
  parent name place h := by
    by_cases ha : name :: place = [['a']]
    · rw [(List.cons.inj ha).2]
      rfl
    by_cases hb : name :: place = [['b']]
    · rw [(List.cons.inj hb).2]
      rfl
    rw [if_neg nofun, if_neg ha, if_neg hb] at h
    exact absurd rfl h

/-- One path goes through the link to the directory, the other one stops at the link to nothing. -/
theorem path_ensures_directories_links :
    AllExist 40 [] (pathEnsureDirectories 4096 40 (fun _ => true) [] linkSystem
        (some "x/../b//z/".toList)).1 "x/../b//z/".toList ∧
      (pathEnsureDirectories 4096 40 (fun _ => true) [] linkSystem (some "a/e/f".toList)).2 =
        false :=
  ⟨((path_ensures_directories 4096 40 (fun _ => true) [] linkSystem rfl
      "x/../b//z/".toList).2.2.1 (by decide +kernel)).1,
    (path_ensures_directories 4096 40 (fun _ => true) [] linkSystem rfl "a/e/f".toList).2.2.2.mpr
      ⟨['a'], ⟨nofun, ['e', '/', 'f'], rfl⟩,
        .link [] ['a'] [] 40 true [.down ['d']] rfl rfl rfl rfl⟩⟩

end LibAtrinik.PathDirectories

import LibAtrinik.CliOptionsStory

namespace LibAtrinik.CliOptions

open LiveHeap Rendezvous ScanFormat BufferedLines StatePrograms

/-- A value for an option, which is given by its place and its name. -/
structure Setting where
  option : ℕ
  name : List Char
  value : List Char

structure Section where
  title : List Char
  settings : List Setting

def escape : List Char → List Char
  | [] => []
  | c::value => if c = '\n' then '\\' :: 'n' :: escape value else c::escape value

def settingLine (x : Setting) : List Char := x.name ++ [' ','=',' '] ++ escape x.value

def headerLine (title : List Char) : List Char := '['::title ++ [']']

/-- The name is that of an option, and looks neither like a comment nor like a title. The value is
not empty, has no white space around it, names no file and holds no escape of its own. The line fits
into the buffer. -/
structure Setting.Writable {H : Type} (s : State H) (x : Setting) : Prop where
  configurable : ∃ cli, Configurable s x.name x.option cli
  name_trim : stringWhitespaceTrim x.name = x.name
  name_free : '=' ∉ x.name ∧ '\n' ∉ x.name ∧ '\x00' ∉ x.name
  name_head : ∃ c, x.name.head? = some c ∧ c ≠ '#' ∧ c ≠ '['
  value_ne : x.value ≠ []
  value_trim : stringWhitespaceTrim (escape x.value) = escape x.value
  value_free : '\x00' ∉ x.value
  value_plain : ¬ ['\\','n'] <:+: x.value
  value_head : x.value.head? ≠ some '<'
  fits : x.name.length + (escape x.value).length + 3 < hugeBuf

structure Section.Writable {H : Type} (s : State H) (part : Section) : Prop where
  title_free : '\n' ∉ part.title ∧ '\x00' ∉ part.title
  fits : part.title.length + 2 < hugeBuf
  settings : ∀ x ∈ part.settings, x.Writable s

theorem newline_notMem_escape (value : List Char) : '\n' ∉ escape value := by
  induction value with
  | nil => exact List.not_mem_nil
  | cons c value ih =>
    rw [escape]
    split
    · simpa using ih
    · rename_i hc
      simpa using ⟨Ne.symm hc, ih⟩

theorem nul_notMem_escape {value : List Char} (h : '\x00' ∉ value) : '\x00' ∉ escape value := by
  induction value with
  | nil => exact h
  | cons c value ih =>
    obtain ⟨hc, hvalue⟩ : '\x00' ≠ c ∧ '\x00' ∉ value := by simpa using h
    rw [escape]
    split
    · simpa using ih hvalue
    · simpa using ⟨hc, ih hvalue⟩

/-- An escaped value begins with an n only if the value does. -/
theorem escape_head_n {value rest : List Char} (h : escape value = 'n'::rest) :
    ∃ value', value = 'n'::value' := by
  cases value with
  | nil => cases h
  | cons c value =>
    rw [escape] at h
    split at h
    · cases h
    · cases h
      exact ⟨value, rfl⟩

theorem unescape_escape {value : List Char} (h : ¬ ['\\','n'] <:+: value) :
    unescape (escape value) = value := by
  induction value with
  | nil => rfl
  | cons c value ih =>
    have hvalue : ¬ ['\\','n'] <:+: value := fun hinside =>
      h (hinside.trans (List.suffix_cons c value).isInfix)
    rw [escape]
    split
    · rename_i hc
      rw [unescape, ih hvalue, hc]
    · -- No escape comes about where an escaped character follows a backslash.
      rw [unescape_cons, ih hvalue]
      rintro ⟨rest, hrest⟩
      obtain ⟨hc, htail⟩ : '\\' = c ∧ 'n'::rest = escape value := by simpa using hrest
      obtain ⟨value', rfl⟩ := escape_head_n htail.symm
      exact h ⟨[], value', by rw [← hc]; rfl⟩

theorem length_le_escape (value : List Char) : value.length ≤ (escape value).length := by
  induction value with
  | nil => exact Nat.le_refl 0
  | cons c value ih =>
    rw [escape]
    split
    · simp only [List.length_cons]
      omega
    · simpa using ih

theorem not_isSpace_of_trim {str : List Char} {c : Char} (h : stringWhitespaceTrim str = str)
    (hc : str.head? = some c) : isSpace c = false := by
  have hnot := List.head?_dropWhile_not isSpace (str.rdropWhile isSpace)
  rw [stringWhitespaceTrim] at h
  rw [h, hc] at hnot
  simpa using hnot

theorem trim_cons_space {str : List Char} (h : stringWhitespaceTrim str = str) (hne : str ≠ []) :
    stringWhitespaceTrim (' '::str) = str := by
  have hspace : isSpace ' ' = true := by decide
  have hright : str.rdropWhile isSpace = str := by
    refine ( List.rdropWhile_prefix isSpace str).eq_of_length (Nat.le_antisymm
      ( List.rdropWhile_prefix isSpace str).length_le ?_)
    have hle := (List.dropWhile_sublist isSpace (l := str.rdropWhile isSpace)).length_le
    rw [stringWhitespaceTrim] at h
    rwa [h] at hle
  have hlast := List.rdropWhile_eq_self_iff.mp hright hne
  have hwhole : (' '::str).rdropWhile isSpace = ' '::str := by
    rw [List.rdropWhile_eq_self_iff]
    intro hne'
    rwa [List.getLast_cons hne]
  rw [stringWhitespaceTrim, hright] at h
  rw [stringWhitespaceTrim, hwhole, List.dropWhile_cons_of_pos hspace, h]

theorem cleanLine_self {line : List Char} {c : Char} (hnul : '\x00' ∉ line)
    (hhead : line.head? = some c) (hc : isSpace c = false) : cleanLine line = line := by
  obtain ⟨line, rfl⟩ := List.head?_eq_some_iff.mp hhead
  rw [cleanLine, takeWhile_ne hnul, List.dropWhile_cons_of_neg (by simp [hc])]

section Lines

variable {H : Type} {s : State H} {x : Setting} {part : Section}

theorem Setting.Writable.head (h : x.Writable s) :
    ∃ c, (settingLine x).head? = some c ∧ c ≠ '#' ∧ c ≠ '[' ∧ isSpace c = false := by
  obtain ⟨c, hc, hcomment, hheader⟩ := h.name_head
  obtain ⟨rest, hname⟩ := List.head?_eq_some_iff.mp hc
  exact ⟨c, by rw [settingLine, hname]; rfl, hcomment, hheader, not_isSpace_of_trim h.name_trim hc⟩

theorem Setting.Writable.line (h : x.Writable s) : settingLine x ≠ [] ∧ '\n' ∉ settingLine x ∧
    (settingLine x).length < hugeBuf ∧ cleanLine (settingLine x) = settingLine x := by
  obtain ⟨c, hc, -, -, hspace⟩ := h.head
  have hfree : '\n' ∉ settingLine x := by
    simpa [settingLine] using ⟨h.name_free.2.1, newline_notMem_escape x.value⟩
  have hnul : '\x00' ∉ settingLine x := by
    simpa [settingLine] using ⟨h.name_free.2.2, nul_notMem_escape h.value_free⟩
  have hfits := h.fits
  refine ⟨fun hnil => ?_, hfree, ?_, cleanLine_self hnul hc hspace⟩
  · rw [hnil] at hc
    cases hc
  · simp only [settingLine, List.length_append, List.length_cons, List.length_nil]
    omega

theorem Section.Writable.header (h : part.Writable s) : headerLine part.title ≠ [] ∧
    '\n' ∉ headerLine part.title ∧ (headerLine part.title).length < hugeBuf ∧
      cleanLine (headerLine part.title) = headerLine part.title := by
  have hfits := h.fits
  have hnul : '\x00' ∉ headerLine part.title := by simpa [headerLine] using h.title_free.2
  refine ⟨List.cons_ne_nil _ _, by simpa [headerLine] using h.title_free.1, ?_,
    cleanLine_self hnul rfl (by decide)⟩
  simp only [headerLine, List.length_cons, List.length_append, List.length_nil]
  omega

theorem Setting.Writable.plain (h : x.Writable s) :
    isHeader (settingLine x) = false ∧ isComment (settingLine x) = false := by
  obtain ⟨c, hc, hcomment, hheader, -⟩ := h.head
  have hne := h.line.1
  exact ⟨by simp [isHeader, hc, hheader], by simp [isComment, hc, hcomment, hne]⟩

/-- The line of a setting asks for the call of its option with its value. -/
theorem Setting.Writable.order (h : x.Writable s) :
    orderOf s.clioptions s.runtime (settingLine x) = .call x.option x.value := by
  obtain ⟨cli, hcli⟩ := h.configurable
  have hfits := h.fits
  -- The value is printed unescaped, so that it fits where its line did.
  have hlength := length_le_escape x.value
  have hspace : isSpace ' ' = true := by decide
  have hname : stringWhitespaceTrim (x.name ++ [' ']) = x.name := by
    rw [stringWhitespaceTrim, List.rdropWhile_concat_pos _ _ _ hspace]
    exact h.name_trim
  have hvalue : stringWhitespaceTrim (' '::escape x.value) = escape x.value :=
    trim_cons_space h.value_trim fun hempty => h.value_ne (by
      rw [← unescape_escape h.value_plain, hempty]
      rfl)
  have hline : settingLine x = (x.name ++ [' ']) ++ '=' :: ' ' :: escape x.value := by
    simp [settingLine]
  have hsame : cli.name = x.name := hcli.name.trans h.name_trim
  have hbegins : x.name <+: cli.name := hsame ▸ List.prefix_refl _
  have hbefore : ∀ k < x.option, ∀ other, s.clioptions[k]? = some other →
      ¬ x.name <+: other.name := by
    intro k hk other hother hother'
    refine hcli.unique k other hother (Nat.ne_of_lt hk) ?_
    rwa [h.name_trim]
  have hallowed : (cli.handlerFunc.isNone || (s.runtime && !cli.changeable)) = false := by
    have hhandler : cli.handlerFunc.isNone = false := by simpa using hcli.handler
    rcases hcli.changeable with hc | hc <;> simp [hc, hhandler]
  rw [hline, orderOf_line (by simpa using h.name_free.1), hname, hvalue,
    unescape_escape h.value_plain, findIdx?_name_some hcli.registered hbegins hbefore]
  simp only [hcli.registered]
  rw [if_neg fun hempty => h.value_ne hempty.2, if_neg (by simp [hallowed]),
    List.take_of_length_le]
  omega

end Lines

/-- What a handler is called with: the option and the argument. -/
def request (call : Call) : ℕ × Option (List Char) := (call.option, call.arg)

end LibAtrinik.CliOptions

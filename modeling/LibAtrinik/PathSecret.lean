import LibAtrinik.FuelLoop
import LibAtrinik.StdioStream

namespace LibAtrinik.PathSecret

open StdioStream

/-- `path_secret_error_t`. -/
inductive PathSecretError where
  | ok | openError | metadataError | notRegular | empty | tooLong | trailingData | readError
deriving DecidableEq, Repr

/-- What the calls on a path give: the stream that it is opened as, the mode from `fstat`, and
whether it can be closed. -/
structure SecretFile where
  fdopen : Option Stream
  stMode : Option ℕ
  fclose : Bool

def isReg (stMode : ℕ) : Bool := stMode &&& 0o170000 = 0o100000

def carriageReturn : UInt8 := 13

def isLineEnd (c : UInt8) : Bool := c = carriageReturn || c = newline

/-- `OPENSSL_cleanse`. -/
def cleanse (size : ℕ) : List UInt8 := List.replicate size 0

/-- One round of the loop over what is behind the buffer: whether there is other data in it. -/
def trailingRound (fp : Stream) : Stream ⊕ (Stream × Bool) :=
  let (trailing, fp) := fread 256 fp
  if trailing = [] then .inr (fp, false)
  else if trailing.all isLineEnd then .inl fp
  else .inr (fp, true)

/-- The result when the terminator has been stored. -/
def nonempty (secret : List UInt8) : PathSecretError × List UInt8 :=
  (if secret.head? = some 0 then .empty else .ok, secret)

/-- What is read from the stream: the result, and the buffer before it is cleared. -/
def readLine (fuel : ℕ) (fp : Stream) (secretSize : ℕ) : Option (PathSecretError × List UInt8) :=
  let (data, fp) := fread secretSize fp
  let secret := data ++ cleanse (secretSize-data.length)
  if fp.error then some (.readError, secret)
  else
    match data.findIdx? (· = newline) with
    | some newline =>
      if (data.drop (newline+1)).all isLineEnd then
        (FuelLoop.run trailingRound fuel fp).map fun left =>
          if left.2 then (.trailingData, secret)
          else if left.1.error then (.readError, secret)
          else
            let used := if newline > 0 ∧ secret[newline-1]? = some carriageReturn then newline-1
              else newline
            nonempty (secret.set used 0)
      else some (.trailingData, secret)
    | none =>
      if fp.eof = false ∨ data.length = secretSize then some (.tooLong, secret)
      else some (nonempty (secret.set data.length 0))

/-- What a call leaves; `*permissive_mode` only if it is asked for. -/
structure Outcome where
  result : PathSecretError
  secret : List UInt8
  permissiveMode : Option Bool
deriving DecidableEq, Repr

/-- What is done behind `out`, with the stream open. -/
def leave (file : SecretFile) (secretSize : ℕ) (permissiveMode : Option Bool)
    (read : PathSecretError × List UInt8) : Outcome :=
  let result := if file.fclose = false ∧ read.1 = .ok then .readError else read.1
  ⟨result, if result = .ok then read.2 else cleanse secretSize, permissiveMode⟩

def pathReadSecret (fuel : ℕ) (file : SecretFile) (secretSize : ℕ) (wantsMode : Bool) :
    Option Outcome :=
  let secret := cleanse secretSize
  let permissiveMode := if wantsMode then some false else none
  match file.fdopen with
  | none => some ⟨.openError, secret, permissiveMode⟩
  | some fp =>
    match file.stMode with
    | none => some (leave file secretSize permissiveMode (.metadataError, secret))
    | some stMode =>
      if isReg stMode then
        let permissiveMode := permissiveMode.map fun _ => decide (stMode &&& 0o077 ≠ 0)
        (readLine fuel fp secretSize).map (leave file secretSize permissiveMode)
      else some (leave file secretSize permissiveMode (.notRegular, secret))

/-- Unless there is a secret the buffer is cleared, whatever happens to the file. -/
theorem secret_cleared {fuel secretSize : ℕ} {file : SecretFile} {wantsMode : Bool} {out : Outcome}
    (h : pathReadSecret fuel file secretSize wantsMode = some out) (hresult : out.result ≠ .ok) :
    out.secret = List.replicate secretSize 0 := by
  have hleave {permissiveMode : Option Bool} {read : PathSecretError × List UInt8}
      (hno : (leave file secretSize permissiveMode read).result ≠ .ok) :
      (leave file secretSize permissiveMode read).secret = List.replicate secretSize 0 := if_neg hno
  simp only [pathReadSecret] at h
  generalize (if wantsMode = true then some false else none) = permissiveMode at h
  split at h
  · obtain rfl := Option.some.inj h
    rfl
  split at h
  · obtain rfl := Option.some.inj h
    exact hleave hresult
  split_ifs at h
  · obtain ⟨read, -, rfl⟩ := Option.map_eq_some_iff.mp h
    exact hleave hresult
  · obtain rfl := Option.some.inj h
    exact hleave hresult

/-- A regular file with this content, all of whose calls succeed. -/
def readable (content : List UInt8) (stMode : ℕ) : SecretFile :=
  ⟨some { rest := content }, some stMode, true⟩

theorem lineEnds_subset {tail part : List UInt8} (h : tail.all isLineEnd = true)
    (hpart : part ⊆ tail) : part.all isLineEnd = true := by
  rw [List.all_eq_true] at h ⊢
  exact fun c hc => h c (hpart hc)

/-- The first round of the loop over what is behind the buffer. -/
theorem trailingRound_eq {fp : Stream} (h : Sound fp) (hends : fp.rest.all isLineEnd = true) :
    (fp.rest = [] ∧ trailingRound fp = .inr ((fread 256 fp).2, false)) ∨
    (fp.rest ≠ [] ∧ trailingRound fp = .inl (fread 256 fp).2) := by
  obtain ⟨hdata, -⟩ := fread_spec h 256
  by_cases hrest : fp.rest = []
  · left
    refine ⟨hrest, ?_⟩
    rw [hrest, List.take_nil] at hdata
    simp only [trailingRound, hdata, if_true]
  · right
    refine ⟨hrest, ?_⟩
    have hne : fp.rest.take 256 ≠ [] := by simp [List.take_eq_nil_iff, hrest]
    have hall := lineEnds_subset hends (List.take_subset 256 fp.rest)
    simp only [trailingRound, hdata, hne, hall, if_true, if_false]

/-- Line ends behind the buffer are read to their end. -/
theorem trailing_run (fuel : ℕ) {fp : Stream} (h : Sound fp) (hends : fp.rest.all isLineEnd = true)
    (hfuel : fp.rest.length < fuel) :
    ∃ left, FuelLoop.run trailingRound fuel fp = some (left, false) ∧ left.error = false := by
  induction fuel generalizing fp with
  | zero => exact absurd hfuel (Nat.not_lt_zero _)
  | succ fuel ih =>
    obtain ⟨-, hleft, hsound, -⟩ := fread_spec h 256
    rcases trailingRound_eq h hends with ⟨-, hround⟩ | ⟨hrest, hround⟩
    · exact ⟨_, FuelLoop.run_leave _ _ _ _ hround, hsound.error⟩
    · rw [FuelLoop.run_continue _ _ _ _ hround]
      have hpos := List.length_pos_iff.mpr hrest
      apply ih hsound
      · rw [hleft]
        exact lineEnds_subset hends (List.drop_subset 256 fp.rest)
      · rw [hleft, List.length_drop]
        omega

theorem findIdx?_newline {front : List UInt8} (hfront : newline ∉ front) (more : List UInt8) :
    (front ++ newline::more).findIdx? (· = newline) = some front.length := by
  induction front with
  | nil => simp [List.findIdx?_cons]
  | cons c front ih =>
    rw [List.mem_cons, not_or] at hfront
    rw [List.cons_append, List.findIdx?_cons, if_neg (by simpa using Ne.symm hfront.1),
      ih hfront.2]
    rfl

theorem findIdx?_none {data : List UInt8} (hdata : newline ∉ data) :
    data.findIdx? (· = newline) = none := by
  rw [List.findIdx?_eq_none_iff]
  intro c hc
  simp only [decide_eq_false_iff_not]
  rintro rfl
  exact hdata hc

theorem set_end (line : List UInt8) (c : UInt8) (rest : List UInt8) :
    (line ++ c::rest).set line.length 0 = line ++ 0::rest := by
  rw [List.set_append_right _ _ (Nat.le_refl _), Nat.sub_self, List.set_cons_zero]

section Read

variable {fuel secretSize : ℕ} {content : List UInt8}

/-- There is no newline in the buffer, and no room behind what is. -/
theorem readLine_tooLong (hno : newline ∉ content.take secretSize)
    (hlong : secretSize ≤ content.length) :
    ∃ secret, readLine fuel { rest := content } secretSize = some (.tooLong, secret) := by
  obtain ⟨hdata, -, hsound, -⟩ := fread_spec (s := { rest := content }) ⟨rfl, rfl⟩ secretSize
  have hlength : (content.take secretSize).length = secretSize := List.length_take_of_le hlong
  refine ⟨content.take secretSize ++ cleanse (secretSize-secretSize), ?_⟩
  simp only [readLine, hsound.error, hdata, findIdx?_none hno, hlength, or_true, if_true,
    Bool.false_eq_true, if_false]

/-- The whole content is the line. -/
theorem readLine_bare (hno : newline ∉ content) (hshort : content.length < secretSize) :
    readLine fuel { rest := content } secretSize =
      some (nonempty (content ++ cleanse (secretSize-content.length))) := by
  obtain ⟨hdata, -, hsound, heof⟩ := fread_spec (s := { rest := content }) ⟨rfl, rfl⟩ secretSize
  rw [List.take_of_length_le (Nat.le_of_lt hshort)] at hdata
  obtain ⟨room, hroom⟩ : ∃ k, secretSize-content.length = k+1 :=
    ⟨secretSize-content.length-1, by omega⟩
  have hset := set_end content 0 (List.replicate room 0)
  rw [readLine]
  simp only [hsound.error, hdata, findIdx?_none hno, heof.mpr (Or.inr hshort), hroom, cleanse,
    List.replicate_succ, hset, Bool.false_eq_true, Bool.true_eq_false, false_or, if_false]
  rw [if_neg (Nat.ne_of_lt hshort)]

/-- There is a newline in the buffer, and only line ends behind it. -/
theorem readLine_newline {front more : List UInt8} (hfront : newline ∉ front)
    (htake : content.take secretSize = front ++ newline::more)
    (hmore : more.all isLineEnd = true) (hrest : (content.drop secretSize).all isLineEnd = true)
    (hfuel : content.length < fuel) :
    readLine fuel { rest := content } secretSize =
      some (nonempty ((front ++ newline::more ++
        cleanse (secretSize-(front ++ newline::more).length)).set
          (if front.length > 0 ∧ (front ++ newline::more ++
            cleanse (secretSize-(front ++ newline::more).length))[front.length-1]? =
              some carriageReturn then front.length-1 else front.length) 0)) := by
  obtain ⟨hdata, hleft, hsound, -⟩ := fread_spec (s := { rest := content }) ⟨rfl, rfl⟩ secretSize
  rw [htake] at hdata
  obtain ⟨left, hrun, herror⟩ := trailing_run fuel hsound (by rw [hleft]; exact hrest) (by
    rw [hleft, List.length_drop]
    exact Nat.lt_of_le_of_lt (Nat.sub_le _ _) hfuel)
  have hdrop : ((front ++ newline::more).drop (front.length+1)).all isLineEnd = true := by
    rw [← List.drop_drop, List.drop_left]
    exact hmore
  simp only [readLine, hsound.error, hdata, findIdx?_newline hfront, hdrop, hrun, herror,
    Option.map_some, Bool.false_eq_true, if_true, if_false]

end Read

/-- What is read from a regular file is what the call gives. -/
theorem pathReadSecret_readable {fuel secretSize stMode : ℕ} {content : List UInt8}
    {read : PathSecretError × List UInt8} (wantsMode : Bool) (hreg : isReg stMode = true)
    (hread : readLine fuel { rest := content } secretSize = some read) :
    ∃ out, pathReadSecret fuel (readable content stMode) secretSize wantsMode = some out ∧
      out.result = read.1 ∧ (read.1 = .ok → out.secret = read.2) := by
  refine ⟨_, by simp only [pathReadSecret, readable, hreg, if_true, hread, Option.map_some]; rfl,
    ?_, ?_⟩
  · simp [leave]
  · intro hok
    simp [leave, hok]

section Line

variable {fuel secretSize : ℕ} {line : List UInt8} (hne : line ≠ []) (hnul : 0 ∉ line)
  (hcr : carriageReturn ∉ line) (hlf : newline ∉ line)

include hne hnul in
theorem nonempty_line (rest : List UInt8) :
    nonempty (line ++ 0::rest) = (.ok, line ++ 0::rest) := by
  cases line with
  | nil => exact absurd rfl hne
  | cons c line =>
    rw [nonempty, List.cons_append, List.head?_cons, if_neg]
    rintro ⟨⟩
    exact hnul List.mem_cons_self

include hnul in
theorem takeWhile_line (rest : List UInt8) : (line ++ 0::rest).takeWhile (· ≠ 0) = line := by
  rw [List.takeWhile_append_of_pos]
  · simp
  · intro c hc
    simp only [ne_eq, decide_not, Bool.not_eq_true', decide_eq_false_iff_not]
    rintro rfl
    exact hnul hc

/-- What may stand behind the line. -/
def Ending (ending : List UInt8) : Prop :=
  ending = [] ∨ ∃ tail, tail.all isLineEnd = true ∧
    (ending = newline::tail ∨ ending = carriageReturn::newline::tail)

include hne hnul hcr hlf in
/-- A line whose end is found in the buffer is the secret. -/
theorem readLine_line {ending : List UInt8} (hending : Ending ending)
    (hroom : line.length < secretSize)
    (hend : ending.head? = some carriageReturn → line.length+1 < secretSize)
    (hfuel : (line ++ ending).length < fuel) :
    ∃ rest, readLine fuel { rest := line ++ ending } secretSize =
      some (.ok, line ++ 0::rest) := by
  rcases hending with rfl | ⟨tail, htail, rfl | rfl⟩
  · -- the end of the file
    obtain ⟨room, hzero⟩ : ∃ k, secretSize-line.length = k+1 :=
      ⟨secretSize-line.length-1, by omega⟩
    rw [List.append_nil, readLine_bare hlf hroom, hzero, cleanse, List.replicate_succ,
      nonempty_line hne hnul]
    exact ⟨_, rfl⟩
  · -- a newline, in front of which there is no carriage return
    obtain ⟨room, hsize⟩ : ∃ k, secretSize = line.length+(k+1) :=
      ⟨secretSize-line.length-1, by omega⟩
    have htake : (line ++ newline::tail).take secretSize = line ++ newline::tail.take room := by
      rw [hsize, List.take_length_add_append, List.take_succ_cons]
    have hdrop : (line ++ newline::tail).drop secretSize = tail.drop room := by
      rw [hsize, List.drop_length_add_append, List.drop_succ_cons]
    have hlast (rest : List UInt8) : ¬(line.length > 0 ∧ (line ++ rest)[line.length-1]? =
        some carriageReturn) := by
      rintro ⟨hpos, hlast⟩
      rw [List.getElem?_append_left (by omega)] at hlast
      exact hcr (List.mem_of_getElem? hlast)
    rw [readLine_newline hlf htake (lineEnds_subset htail (List.take_subset room tail))
      (by rw [hdrop]; exact lineEnds_subset htail (List.drop_subset room tail)) hfuel,
      List.append_assoc, if_neg (hlast _), List.cons_append, set_end, nonempty_line hne hnul]
    exact ⟨_, rfl⟩
  · -- both, and the terminator overwrites the carriage return
    have hroom' := hend rfl
    obtain ⟨room, hsize⟩ : ∃ k, secretSize = line.length+(k+2) :=
      ⟨secretSize-line.length-2, by omega⟩
    have htake : (line ++ carriageReturn::newline::tail).take secretSize =
        line ++ [carriageReturn] ++ newline::tail.take room := by
      rw [hsize, List.take_length_add_append, List.take_succ_cons, List.take_succ_cons,
        List.append_assoc]
      rfl
    have hdrop : (line ++ carriageReturn::newline::tail).drop secretSize = tail.drop room := by
      rw [hsize, List.drop_length_add_append, List.drop_succ_cons, List.drop_succ_cons]
    have hfront : newline ∉ line ++ [carriageReturn] := by
      rw [List.mem_append, not_or]
      exact ⟨hlf, by decide⟩
    have hlength : (line ++ [carriageReturn]).length = line.length+1 := by
      rw [List.length_append, List.length_singleton]
    have hlast (rest : List UInt8) : line.length+1 > 0 ∧ (line ++ [carriageReturn] ++ rest)[
        line.length+1-1]? = some carriageReturn := by
      rw [Nat.add_sub_cancel, List.append_assoc, List.getElem?_append_right (Nat.le_refl _),
        Nat.sub_self]
      exact ⟨Nat.succ_pos _, rfl⟩
    rw [readLine_newline hfront htake (lineEnds_subset htail (List.take_subset room tail))
      (by rw [hdrop]; exact lineEnds_subset htail (List.drop_subset room tail)) hfuel,
      hlength, List.append_assoc (line ++ [carriageReturn]), if_pos (hlast _), Nat.add_sub_cancel,
      List.append_assoc line, List.singleton_append, set_end, nonempty_line hne hnul]
    exact ⟨_, rfl⟩

include hlf in
/-- A line that fills the buffer is too long. -/
theorem readLine_long (ending : List UInt8) (hlong : secretSize ≤ line.length) :
    ∃ secret, readLine fuel { rest := line ++ ending } secretSize = some (.tooLong, secret) := by
  apply readLine_tooLong
  · rw [List.take_append_of_le_length hlong]
    exact fun hin => hlf (List.mem_of_mem_take hin)
  · rw [List.length_append]
    omega

include hlf in
/-- So is a line that leaves room for its carriage return only. -/
theorem readLine_return {ending : List UInt8} (hhead : ending.head? = some carriageReturn)
    (hsize : line.length+1 = secretSize) :
    ∃ secret, readLine fuel { rest := line ++ ending } secretSize = some (.tooLong, secret) := by
  obtain ⟨more, rfl⟩ := List.head?_eq_some_iff.mp hhead
  apply readLine_tooLong
  · rw [← hsize, List.take_length_add_append, List.mem_append, not_or]
    exact ⟨hlf, by simp [newline, carriageReturn]⟩
  · rw [List.length_append, List.length_cons]
    omega

/-- The secret is the line if there is room for it. -/
def Claimed (line : List UInt8) (secretSize : ℕ) (out : Outcome) : Prop :=
  if line.length < secretSize then out.result = .ok ∧ out.secret.takeWhile (· ≠ 0) = line
  else out.result = .tooLong

end Line

/-- The line ending does not matter unless it is a carriage return behind a line that leaves room
for nothing else: then the line is taken for one that is too long. Without a secret the buffer is
cleared. -/
theorem pathReadSecret_iff (stMode secretSize : ℕ) (wantsMode : Bool) (line ending : List UInt8)
    (hreg : isReg stMode = true) (hne : line ≠ []) (hnul : 0 ∉ line) (hcr : carriageReturn ∉ line)
    (hlf : newline ∉ line) (hending : Ending ending) :
    (∃ fuel out, pathReadSecret fuel (readable (line ++ ending) stMode) secretSize wantsMode =
        some out ∧
      (Claimed line secretSize out ↔
        ¬(ending.head? = some carriageReturn ∧ line.length+1 = secretSize))) ∧
    ∀ fuel file out, pathReadSecret fuel file secretSize wantsMode = some out →
      out.result ≠ .ok → out.secret = List.replicate secretSize 0 := by
  refine ⟨?_, fun _ _ _ => secret_cleared⟩
  have hfuel := Nat.lt_succ_self (line ++ ending).length
  refine ⟨(line ++ ending).length+1, ?_⟩
  by_cases hlong : secretSize ≤ line.length
  · obtain ⟨secret, hread⟩ := readLine_long hlf ending hlong
    obtain ⟨out, hrun, hresult, -⟩ := pathReadSecret_readable wantsMode hreg hread
    refine ⟨out, hrun, ?_⟩
    rw [Claimed, if_neg (by omega)]
    exact ⟨fun _ hno => by omega, fun _ => hresult⟩
  have hroom : line.length < secretSize := Nat.lt_of_not_le hlong
  by_cases hreturn : ending.head? = some carriageReturn ∧ line.length+1 = secretSize
  · obtain ⟨secret, hread⟩ := readLine_return hlf hreturn.1 hreturn.2
    obtain ⟨out, hrun, hresult, -⟩ := pathReadSecret_readable wantsMode hreg hread
    refine ⟨out, hrun, ?_⟩
    rw [Claimed, if_pos hroom, hresult]
    exact ⟨fun hno => absurd hno.1 (by simp), fun hno => absurd hreturn hno⟩
  · obtain ⟨rest, hread⟩ := readLine_line hne hnul hcr hlf hending hroom
      (fun hhead => by
        have := not_and.mp hreturn hhead
        omega) hfuel
    obtain ⟨out, hrun, hresult, hsecret⟩ := pathReadSecret_readable wantsMode hreg hread
    refine ⟨out, hrun, ?_⟩
    rw [Claimed, if_pos hroom, hresult, hsecret rfl, takeWhile_line hnul]
    exact ⟨fun _ => hreturn, fun _ => ⟨rfl, rfl⟩⟩

/-- The line `abc` with CR LF in a buffer of four characters, in which it fits without. -/
theorem pathReadSecret_return :
    pathReadSecret 9 (readable [97, 98, 99, 13, 10] 0o100600) 4 false =
      some ⟨.tooLong, [0, 0, 0, 0], none⟩ ∧
    pathReadSecret 9 (readable [97, 98, 99, 10] 0o100600) 4 false =
      some ⟨.ok, [97, 98, 99, 0], none⟩ := by
  decide

theorem pathReadSecret_iff_line :
    ∃ fuel out, pathReadSecret fuel (readable ([97] ++ [13, 10, 10]) 0o100600) 8 true = some out ∧
      (Claimed [97] 8 out ↔
        ¬([13, 10, 10].head? = some carriageReturn ∧ [(97 : UInt8)].length+1 = 8)) :=
  (pathReadSecret_iff 0o100600 8 true [97] [13, 10, 10] (by decide) (by decide) (by decide)
    (by decide) (by decide) (Or.inr ⟨[10], by decide, Or.inr rfl⟩)).1

end LibAtrinik.PathSecret

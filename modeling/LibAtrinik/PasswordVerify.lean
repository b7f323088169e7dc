import LibAtrinik.PasswordRecords

namespace LibAtrinik.Password

/-- `password_derive`. -/
abbrev Derive :=
  List Char → ℕ → ℕ → ℕ → Bytes passwordSaltSize → Option (Bytes passwordHashSize)

/-- `password_verify_result_t`. -/
inductive VerifyResult where
  | error
  | mismatch
  | matches
deriving DecidableEq, Repr

/-- The derivation with the parameters of a record. -/
def PasswordParameters.derived (derive : Derive) (password : List Char) (q : PasswordParameters) :
    Option (Bytes passwordHashSize) :=
  derive password q.memoryKib q.iterations q.lanes q.salt

/-- Comparing what was derived with what is expected. -/
def compared {n : ℕ} (expected : Bytes n) : Option (Bytes n) → VerifyResult
  | none => .error
  | some output => if output = expected then .matches else .mismatch

def passwordRecordVerify (wide : Bool → ℕ → ℕ) (derive : Derive)
    (password record : Option (List Char)) : VerifyResult :=
  match password with
  | none => .error
  | some password =>
    match passwordParse wide record with
    | none => .error
    | some q => compared q.hash (q.derived derive password)

def passwordRecordIsValid (wide : Bool → ℕ → ℕ) (record : Option (List Char)) : Bool :=
  (passwordParse wide record).isSome

def passwordRecordNeedsRehash (wide : Bool → ℕ → ℕ) (record : Option (List Char)) : Bool :=
  match passwordParse wide record with
  | none => false
  | some q => q.memoryKib ≠ passwordMemoryKib || q.iterations ≠ passwordIterations ||
      q.lanes ≠ passwordLanes

/-- The parameters of a text that is a record. -/
def IsRecord (record : List Char) (q : PasswordParameters) : Prop :=
  Accepted q.memoryKib q.iterations q.lanes ∧ record = passwordRender q

variable {wide : Bool → ℕ → ℕ}

theorem passwordParse_eq_some_iff (record : Option (List Char)) (q : PasswordParameters) :
    passwordParse wide record = some q ↔ ∃ text, record = some text ∧ IsRecord text q := by
  cases record with
  | none => simp [passwordParse]
  | some text =>
    constructor
    · intro h
      exact ⟨text, rfl, passwordParse_some h⟩
    · rintro ⟨_, heq, haccepted, hrender⟩
      rw [heq, hrender]
      exact passwordParse_render haccepted

/-- A text is the record of no more than one set of parameters. -/
theorem IsRecord.unique {record : List Char} {q q' : PasswordParameters} (h : IsRecord record q)
    (h' : IsRecord record q') : q = q' := by
  have hq := (@passwordParse_eq_some_iff (fun _ n => n) (some record) q).mpr ⟨_, rfl, h⟩
  have hq' := (@passwordParse_eq_some_iff (fun _ n => n) (some record) q').mpr ⟨_, rfl, h'⟩
  exact Option.some.inj (hq.symm.trans hq')

theorem compared_eq_matches {n : ℕ} (expected : Bytes n) (output : Option (Bytes n)) :
    compared expected output = .matches ↔ output = some expected := by
  cases output with
  | none => simp [compared]
  | some output =>
    rw [compared]
    split_ifs with h <;> simp [h]

theorem compared_eq_error {n : ℕ} (expected : Bytes n) (output : Option (Bytes n)) :
    compared expected output = .error ↔ output = none := by
  cases output with
  | none => simp [compared]
  | some output =>
    rw [compared]
    split_ifs <;> simp

/-- The three answers for every password and every text: a match for the records of just those
parameters whose hash is derived from the password, an error for what is no record or where the
derivation fails, and a mismatch for the rest. Of the texts with the same parameters and salt
only one can match. -/
theorem password_record_verify_iff (wide : Bool → ℕ → ℕ) (derive : Derive)
    (password record : List Char) :
    (passwordRecordVerify wide derive (some password) (some record) = .matches ↔
      ∃ q, IsRecord record q ∧ q.derived derive password = some q.hash) ∧
    (passwordRecordVerify wide derive (some password) (some record) = .error ↔
      ∀ q, IsRecord record q → q.derived derive password = none) ∧
    ∀ (record' : List Char) (q q' : PasswordParameters),
      passwordRecordVerify wide derive (some password) (some record) = .matches →
      passwordRecordVerify wide derive (some password) (some record') = .matches →
      IsRecord record q → IsRecord record' q' → q.memoryKib = q'.memoryKib →
      q.iterations = q'.iterations → q.lanes = q'.lanes → q.salt = q'.salt → record = record' := by
  have hmatch (record : List Char) :
      passwordRecordVerify wide derive (some password) (some record) = .matches ↔
        ∃ q, IsRecord record q ∧ q.derived derive password = some q.hash := by
    unfold passwordRecordVerify
    dsimp only
    cases hparse : passwordParse wide (some record) with
    | none =>
      refine ⟨fun h => (by cases h), ?_⟩
      rintro ⟨q, hq, _⟩
      rw [(passwordParse_eq_some_iff _ q).mpr ⟨record, rfl, hq⟩] at hparse
      cases hparse
    | some q =>
      obtain ⟨_, heq, hq⟩ := (passwordParse_eq_some_iff _ q).mp hparse
      rw [← Option.some.inj heq] at hq
      dsimp only
      rw [compared_eq_matches]
      refine ⟨fun h => ⟨q, hq, h⟩, ?_⟩
      rintro ⟨q', hq', h⟩
      rwa [hq.unique hq']
  refine ⟨hmatch record, ?_, ?_⟩
  · unfold passwordRecordVerify
    dsimp only
    cases hparse : passwordParse wide (some record) with
    | none =>
      refine ⟨fun _ q hq => ?_, fun _ => rfl⟩
      rw [(passwordParse_eq_some_iff _ q).mpr ⟨record, rfl, hq⟩] at hparse
      cases hparse
    | some q =>
      obtain ⟨_, heq, hq⟩ := (passwordParse_eq_some_iff _ q).mp hparse
      rw [← Option.some.inj heq] at hq
      dsimp only
      rw [compared_eq_error]
      refine ⟨fun h q' hq' => ?_, fun h => h q hq⟩
      rwa [← hq.unique hq']
  · intro record' q q' h h' hq hq' hmemory hiterations hlanes hsalt
    obtain ⟨p, hp, hderived⟩ := (hmatch record).mp h
    obtain ⟨p', hp', hderived'⟩ := (hmatch record').mp h'
    obtain rfl := hp.unique hq
    obtain rfl := hp'.unique hq'
    -- the same derivation has the same result
    have hhash : p.hash = p'.hash := by
      unfold PasswordParameters.derived at hderived hderived'
      rw [hmemory, hiterations, hlanes, hsalt, hderived'] at hderived
      exact (Option.some.inj hderived).symm
    have hparameters : p = p' := by
      cases p
      cases p'
      simp only at hmemory hiterations hlanes hsalt hhash
      rw [hmemory, hiterations, hlanes, hsalt, hhash]
    rw [hq.2, hq'.2, hparameters]

/-- Where the derivation succeeds, a record is made. -/
theorem passwordRecordCreate_eq {derive : Derive} {salt : Bytes passwordSaltSize}
    {password : List Char} {hash : Bytes passwordHashSize}
    (h : derive password passwordMemoryKib passwordIterations passwordLanes salt = some hash) :
    passwordRecordCreate (some salt) derive (some password) = some (passwordRender
      ⟨passwordMemoryKib, passwordIterations, passwordLanes, salt, hash⟩) := by
  let q : PasswordParameters :=
    ⟨passwordMemoryKib, passwordIterations, passwordLanes, salt, hash⟩
  have hsalt : (saltText q).length = passwordSaltSize*2 := (saltText_word q).1
  have hhash : (hashText q).length = passwordHashSize*2 := (hashText_word q).1
  have hfits := recordText_fits accepted_default (saltText_word q).1 (hashText_word q).1
  rw [passwordRecordCreate]
  dsimp only
  rw [h]
  dsimp only
  rw [if_neg (by
    rintro (hne | hne)
    · exact hne hsalt
    · exact hne hhash)]
  exact if_pos hfits

/-- A record that has been created is valid and up to date, matches its password, and answers to
every other password by comparing what the two derive to; and a valid record is up to date if and
only if one with its salt and hash could have been created. -/
theorem password_record_lifecycle (wide : Bool → ℕ → ℕ) (derive : Derive) :
    (∀ salt password record,
      passwordRecordCreate (some salt) derive (some password) = some record →
      ∃ hash, derive password passwordMemoryKib passwordIterations passwordLanes salt = some hash ∧
        passwordRecordIsValid wide (some record) = true ∧
        passwordRecordNeedsRehash wide (some record) = false ∧
        passwordRecordVerify wide derive (some password) (some record) = .matches ∧
        ∀ other, passwordRecordVerify wide derive (some other) (some record) =
          compared hash (derive other passwordMemoryKib passwordIterations passwordLanes salt)) ∧
    ∀ record q, passwordParse wide (some record) = some q →
      (passwordRecordNeedsRehash wide (some record) = false ↔
        passwordRecordCreate (some q.salt) (fun _ _ _ _ _ => some q.hash) (some []) =
          some record) := by
  constructor
  · intro salt password record h
    obtain ⟨hash, hderive, hparse⟩ := @passwordRecordCreate_parses wide _ _ _ _ h
    have hverify (other : List Char) :
        passwordRecordVerify wide derive (some other) (some record) =
          compared hash (derive other passwordMemoryKib passwordIterations passwordLanes salt) := by
      unfold passwordRecordVerify
      dsimp only
      rw [hparse]
      rfl
    refine ⟨hash, hderive, ?_, ?_, ?_, hverify⟩
    · rw [passwordRecordIsValid, hparse]
      rfl
    · rw [passwordRecordNeedsRehash, hparse]
      rfl
    · rw [hverify, compared_eq_matches]
      exact hderive
  · intro record q hparse
    obtain ⟨haccepted, hrender⟩ := passwordParse_some hparse
    have hneeds : passwordRecordNeedsRehash wide (some record) = false ↔
        q.memoryKib = passwordMemoryKib ∧ q.iterations = passwordIterations ∧
          q.lanes = passwordLanes := by
      rw [passwordRecordNeedsRehash, hparse]
      simp [and_assoc]
    rw [hneeds]
    constructor
    · rintro ⟨hmemory, hiterations, hlanes⟩
      rw [passwordRecordCreate_eq rfl, hrender]
      cases q
      simp only at hmemory hiterations hlanes
      rw [hmemory, hiterations, hlanes]
    · intro hcreate
      obtain ⟨hash, _, hparse'⟩ := @passwordRecordCreate_parses wide _ _ _ _ hcreate
      rw [hparse] at hparse'
      rw [Option.some.inj hparse']
      exact ⟨rfl, rfl, rfl⟩

end LibAtrinik.Password

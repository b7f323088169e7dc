import LibAtrinik.Password
import LibAtrinik.SocketRendezvousParse

namespace LibAtrinik.Password

open ScanFormat Rendezvous

variable {wide : Bool → ℕ → ℕ}

theorem tohexLoop_eq (str : List UInt8) (resultsize : ℕ) (result : List Char)
    (hroom : result.length + 2*str.length < resultsize) :
    tohexLoop resultsize false str result = result ++ HexText.encode str := by
  induction str generalizing result with
  | nil => simp [tohexLoop, HexText.encode]
  | cons b str ih =>
    rw [List.length_cons] at hroom
    have hsep : (if str = [] then false else false) = false := by split <;> rfl
    have hfits : ¬ result.length + 2 > resultsize-1 := by omega
    simp only [tohexLoop, hsep, Bool.false_eq_true, if_false, List.append_nil]
    have hnext : (result ++ [HexText.digit (b.toNat/16), HexText.digit (b.toNat%16)]).length +
        2*str.length < resultsize := by
      simp only [List.length_append, List.length_cons, List.length_nil]
      omega
    rw [if_neg hfits, ih _ hnext, HexText.encode_cons, List.append_assoc]
    rfl

theorem stringTohex_eq (str : List UInt8) :
    stringTohex str (str.length*2+1) false = HexText.encode str := by
  rw [stringTohex, tohexLoop_eq _ _ _ (by simp; omega), List.nil_append]

/-- Two digits make one byte. -/
theorem joined_digits (x y : Fin 16) :
    ((0 : UInt8) <<< 4 ||| UInt8.ofNat x.val) <<< 4 ||| UInt8.ofNat y.val =
      UInt8.ofNat (16*x.val+y.val) := by
  revert x y
  decide

/-- Two digits are read as one byte. -/
theorem fromhexLoop_pair (x y : Fin 16) (str : List Char) (resultsize : ℕ) (result : List UInt8)
    (hroom : result.length < resultsize) :
    fromhexLoop resultsize (HexText.digit x :: HexText.digit y :: str) 0 0 result =
      fromhexLoop resultsize str 0 0 (result ++ [UInt8.ofNat (16*x.val+y.val)]) := by
  simp only [fromhexLoop, hroom, if_true, HexText.value_digit]
  rw [if_neg (by decide), joined_digits]

theorem fromhexLoop_eq (str : List Char) (n resultsize : ℕ) (result : List UInt8)
    (hlength : str.length = 2*n) (hdigits : ∀ c ∈ str, HexText.isDigit c = true)
    (hroom : result.length + n ≤ resultsize) :
    fromhexLoop resultsize str 0 0 result = result ++ HexText.decode str := by
  induction n generalizing str result with
  | zero =>
    rw [List.length_eq_zero_iff.mp hlength]
    simp [fromhexLoop, HexText.decode]
  | succ n ih =>
    obtain ⟨high, rest, rfl⟩ := List.exists_cons_of_length_pos (l := str) (by omega)
    obtain ⟨low, str, rfl⟩ := List.exists_cons_of_length_pos (l := rest) (by
      rw [List.length_cons] at hlength
      omega)
    obtain ⟨x,rfl⟩ := HexText.exists_digit (hdigits high (by simp))
    obtain ⟨y,rfl⟩ := HexText.exists_digit (hdigits low (by simp))
    have hnext := ih str (result ++ [UInt8.ofNat (16*x.val+y.val)])
      (by simp only [List.length_cons] at hlength; omega)
      (fun c hc => hdigits c (by simp [hc])) (by simp; omega)
    rw [fromhexLoop_pair x y str resultsize result (by omega), hnext, HexText.decode,
      (HexText.value_digit x).1, (HexText.value_digit y).1, List.append_assoc,
      List.singleton_append]

/-- A full text of digits is read in full. -/
theorem fromhexInto_eq {n : ℕ} {str : List Char} (hlength : str.length = n*2)
    (hdigits : ∀ c ∈ str, HexText.isDigit c = true) :
    ∃ h : (HexText.decode str).length = n,
      fromhexInto n str = some ⟨HexText.decode str, h⟩ := by
  have heq : stringFromhex str n = HexText.decode str := by
    rw [stringFromhex, fromhexLoop_eq str n n [] (by omega) hdigits (by simp), List.nil_append]
  have hlen := (HexText.encode_decode str n (by omega) hdigits).2
  refine ⟨hlen, ?_⟩
  rw [fromhexInto, dif_pos (by rw [heq]; exact hlen)]
  simp only [heq]

theorem saltText_eq (q : PasswordParameters) : saltText q = HexText.encode q.salt.val := by
  have h := stringTohex_eq q.salt.val
  rwa [q.salt.property] at h

theorem hashText_eq (q : PasswordParameters) : hashText q = HexText.encode q.hash.val := by
  have h := stringTohex_eq q.hash.val
  rwa [q.hash.property] at h

/-- A record with any spellings of the numbers. -/
def spelledRecord (version memory iterations lanes salt hash : List Char) : List Char :=
  recordHead ++ version ++ memoryText ++ memory ++ iterationsText ++ iterations ++ lanesText ++
    lanes ++ dollarText ++ salt ++ dollarText ++ hash

theorem record_scans {record : List Char} {values : List Value} :
    Scans wide recordFormat record values ↔
      ∃ sv v sm m st t sp p salt hash, record = spelledRecord sv sm st sp salt hash ∧
        values = [.number v, .number m, .number t, .number p, .word salt, .word hash] ∧
        Numeral wide sv v ∧ Numeral wide sm m ∧ Numeral wide st t ∧ Numeral wide sp p ∧
        Word 32 HexText.isDigit salt ∧ Word 64 HexText.isDigit hash := by
  have hversion : Stops Char.isDigit memoryText := ⟨'$', _, rfl, by decide⟩
  have hmemory : Stops Char.isDigit iterationsText := ⟨',', _, rfl, by decide⟩
  have hiterations : Stops Char.isDigit lanesText := ⟨',', _, rfl, by decide⟩
  have hlanes : Stops Char.isDigit dollarText := ⟨'$', _, rfl, by decide⟩
  have hsalt : Stops HexText.isDigit dollarText := ⟨'$', _, rfl, by decide⟩
  unfold recordFormat
  simp only [scans_text, scans_number hversion, scans_number hmemory, scans_number hiterations,
    scans_number hlanes, scans_word hsalt, scans_last_word]
  constructor
  · rintro ⟨_, rfl, sv, v, _, _, rfl, rfl, hv, sm, m, _, _, rfl, rfl, hm, st, t, _, _, rfl, rfl, ht,
      sp, p, _, _, rfl, rfl, hp, salt, hash, _, rfl, rfl, hs, hsl, hsc, rfl, hh, hhl, hhc⟩
    refine ⟨sv, v, sm, m, st, t, sp, p, salt, hash, ?_, rfl, hv, hm, ht, hp, ⟨hs,hsl,hsc⟩,
      hh, hhl, hhc⟩
    simp only [spelledRecord, List.append_assoc]
  · rintro ⟨sv, v, sm, m, st, t, sp, p, salt, hash, rfl, rfl, hv, hm, ht, hp, ⟨hs,hsl,hsc⟩,
      hh, hhl, hhc⟩
    refine ⟨_, ?_, sv, v, _, _, rfl, rfl, hv, sm, m, _, _, rfl, rfl, hm, st, t, _, _, rfl, rfl, ht,
      sp, p, _, _, rfl, rfl, hp, salt, hash, _, rfl, rfl, hs, hsl, hsc, rfl, hh, hhl, hhc⟩
    simp only [spelledRecord, List.append_assoc]

theorem recordText_eq (memoryKib iterations lanes : ℕ) (saltHex hashHex : List Char) :
    recordText memoryKib iterations lanes saltHex hashHex =
      spelledRecord (Nat.toDigits 10 passwordVersion) (Nat.toDigits 10 memoryKib)
        (Nat.toDigits 10 iterations) (Nat.toDigits 10 lanes) saltHex hashHex := rfl

/-- The parameters that are accepted; the sizes of the salt and the hash are in their types. -/
structure Accepted (memoryKib iterations lanes : ℕ) : Prop where
  minMemory : passwordMinMemoryKib ≤ memoryKib
  maxMemory : memoryKib ≤ passwordMaxMemoryKib
  minIterations : passwordMinIterations ≤ iterations
  maxIterations : iterations ≤ passwordMaxIterations
  minLanes : passwordMinLanes ≤ lanes
  maxLanes : lanes ≤ passwordMaxLanes

/-- Accepted parameters are rendered in full. -/
theorem recordText_fits {memoryKib iterations lanes : ℕ} (h : Accepted memoryKib iterations lanes)
    {saltHex hashHex : List Char} (hsalt : saltHex.length = 32) (hhash : hashHex.length = 64) :
    0 < (recordText memoryKib iterations lanes saltHex hashHex).length ∧
      (recordText memoryKib iterations lanes saltHex hashHex).length < passwordRecordSize := by
  have hmemory : (Nat.toDigits 10 memoryKib).length ≤ 6 :=
    (Nat.length_toDigits_le_iff (by decide) (by decide)).mpr
      (Nat.lt_of_le_of_lt h.maxMemory (by decide))
  have hiterations : (Nat.toDigits 10 iterations).length ≤ 2 :=
    (Nat.length_toDigits_le_iff (by decide) (by decide)).mpr
      (Nat.lt_of_le_of_lt h.maxIterations (by decide))
  have hlanes : (Nat.toDigits 10 lanes).length ≤ 1 :=
    (Nat.length_toDigits_le_iff (by decide) (by decide)).mpr
      (Nat.lt_of_le_of_lt h.maxLanes (by decide))
  have hlength : (recordText memoryKib iterations lanes saltHex hashHex).length =
      25 + (Nat.toDigits 10 memoryKib).length + (Nat.toDigits 10 iterations).length +
        (Nat.toDigits 10 lanes).length + saltHex.length + hashHex.length := by
    have htexts : dollarText.length = 1 ∧ passwordAlgorithm.length = 8 ∧
        "$v=".toList.length = 3 ∧ (Nat.toDigits 10 passwordVersion).length = 2 ∧
        memoryText.length = 3 ∧ iterationsText.length = 3 ∧ lanesText.length = 3 := by decide
    obtain ⟨hdollar,halgorithm,hv,hversion,hm,ht,hp⟩ := htexts
    simp only [recordText, List.length_append, hdollar, halgorithm, hv, hversion, hm, ht, hp]
    omega
  rw [hlength, passwordRecordSize]
  omega

/-- The bytes of a text of digits, as an array. -/
theorem fromhexInto_encode {n : ℕ} (bytes : Bytes n) :
    fromhexInto n (HexText.encode bytes.val) = some bytes := by
  have hlength : (HexText.encode bytes.val).length = n*2 := by
    rw [HexText.length_encode, bytes.property, Nat.mul_comm]
  obtain ⟨h,heq⟩ := fromhexInto_eq hlength (HexText.encode_digits bytes.val)
  rw [heq]
  exact congrArg some (Subtype.ext (HexText.decode_encode bytes.val))

theorem saltText_word (q : PasswordParameters) :
    (saltText q).length = 32 ∧ Word 32 HexText.isDigit (saltText q) := by
  have hlength : (saltText q).length = 32 := by
    rw [saltText_eq, HexText.length_encode, q.salt.property]
    rfl
  refine ⟨hlength, fun h => by simp [h] at hlength, hlength.le, ?_⟩
  rw [saltText_eq]
  exact HexText.encode_digits q.salt.val

theorem hashText_word (q : PasswordParameters) :
    (hashText q).length = 64 ∧ Word 64 HexText.isDigit (hashText q) := by
  have hlength : (hashText q).length = 64 := by
    rw [hashText_eq, HexText.length_encode, q.hash.property]
    rfl
  refine ⟨hlength, fun h => by simp [h] at hlength, hlength.le, ?_⟩
  rw [hashText_eq]
  exact HexText.encode_digits q.hash.val

theorem passwordRender_eq {q : PasswordParameters} (h : Accepted q.memoryKib q.iterations q.lanes) :
    passwordRender q = recordText q.memoryKib q.iterations q.lanes (saltText q) (hashText q) :=
  snprintf_of_lt (recordText_fits h (saltText_word q).1 (hashText_word q).1).2

/-- The rendered record of accepted parameters is parsed as these. -/
theorem passwordParse_render {q : PasswordParameters}
    (h : Accepted q.memoryKib q.iterations q.lanes) :
    passwordParse wide (some (passwordRender q)) = some q := by
  obtain ⟨hsaltLength,hsalt⟩ := saltText_word q
  obtain ⟨hhashLength,hhash⟩ := hashText_word q
  have hfits := recordText_fits h hsaltLength hhashLength
  have hnumeral (n : ℕ) (bound : ℕ) (hle : n ≤ bound) (hbound : bound < 2^32) :
      Numeral wide (Nat.toDigits 10 n) n := numeral_toDigits n (Nat.lt_of_le_of_lt hle hbound)
  obtain ⟨consumed,hscan,hend⟩ := (sscanf_whole (List.cons_ne_nil _ _)).mpr
    (record_scans.mpr ⟨_, passwordVersion, _, q.memoryKib, _, q.iterations, _, q.lanes, saltText q,
      hashText q, recordText_eq _ _ _ _ _, rfl, hnumeral _ _ (Nat.le_refl _) (by decide),
      hnumeral _ _ h.maxMemory (by decide), hnumeral _ _ h.maxIterations (by decide),
      hnumeral _ _ h.maxLanes (by decide), hsalt, hhash⟩)
  have hchecks : ¬ (([] : List Char) ≠ [] ∨ passwordVersion ≠ passwordVersion ∨
      q.memoryKib < passwordMinMemoryKib ∨ q.memoryKib > passwordMaxMemoryKib ∨
      q.iterations < passwordMinIterations ∨ q.iterations > passwordMaxIterations ∨
      q.lanes < passwordMinLanes ∨ q.lanes > passwordMaxLanes ∨
      (saltText q).length ≠ passwordSaltSize*2 ∨ (hashText q).length ≠ passwordHashSize*2) := by
    have hminMemory := h.minMemory
    have hmaxMemory := h.maxMemory
    have hminIterations := h.minIterations
    have hmaxIterations := h.maxIterations
    have hminLanes := h.minLanes
    have hmaxLanes := h.maxLanes
    have hsizes : passwordSaltSize*2 = 32 ∧ passwordHashSize*2 = 64 := by decide
    simp only [ne_eq, not_true_eq_false, false_or]
    omega
  rw [passwordRender_eq h, passwordParse]
  dsimp only
  rw [if_neg (Nat.not_le.mpr hfits.2), hscan]
  dsimp only
  rw [hend, if_neg hchecks, if_pos ⟨hfits.1,hfits.2,(snprintf_of_lt hfits.2).symm⟩, saltText_eq,
    hashText_eq, fromhexInto_encode, fromhexInto_encode]
  rfl

/-- What is accepted is the rendered record of the parsed parameters. -/
theorem passwordParse_some {record : List Char} {q : PasswordParameters}
    (h : passwordParse wide (some record) = some q) :
    Accepted q.memoryKib q.iterations q.lanes ∧ record = passwordRender q := by
  rw [passwordParse] at h
  dsimp only at h
  split at h
  · cases h
  · split at h
    · rename_i version memoryKib iterations lanes saltHex hashHex consumed hscan
      split at h
      · cases h
      · rename_i hchecks
        simp only [not_or, not_not, not_lt] at hchecks
        obtain ⟨hend,-,hminMemory,hmaxMemory,hminIterations,hmaxIterations,hminLanes,hmaxLanes,
          hsaltLength,hhashLength⟩ := hchecks
        -- The two words are made of digits, as they were scanned.
        obtain ⟨_,_,_,_,_,_,_,_,salt,hash,-,hvalues,-,-,-,-,hsalt,hhash⟩ := record_scans.mp
          ((sscanf_whole (List.cons_ne_nil _ _)).mp ⟨consumed,hscan,hend⟩)
        simp only [List.cons.injEq, Value.word.injEq, and_true] at hvalues
        obtain ⟨-,-,-,-,rfl,rfl⟩ := hvalues
        obtain ⟨hsalt',hsaltInto⟩ := fromhexInto_eq hsaltLength hsalt.2.2
        obtain ⟨hhash',hhashInto⟩ := fromhexInto_eq hhashLength hhash.2.2
        split at h
        · rename_i hcanonical
          obtain ⟨-,hshort,hrecord⟩ := hcanonical
          rw [hsaltInto, hhashInto] at h
          obtain rfl := Option.some.inj h
          have haccepted : Accepted memoryKib iterations lanes :=
            ⟨hminMemory,hmaxMemory,hminIterations,hmaxIterations,hminLanes,hmaxLanes⟩
          refine ⟨haccepted, ?_⟩
          -- Printing the bytes again gives the same digits.
          have hsaltHex := (HexText.encode_decode saltHex 16 hsaltLength hsalt.2.2).1
          have hhashHex := (HexText.encode_decode hashHex 32 hhashLength hhash.2.2).1
          calc record = recordText memoryKib iterations lanes saltHex hashHex :=
                hrecord.trans (snprintf_of_lt hshort)
            _ = recordText memoryKib iterations lanes (HexText.encode (HexText.decode saltHex))
                (HexText.encode (HexText.decode hashHex)) := by rw [hsaltHex, hhashHex]
            _ = passwordRender _ := by rw [passwordRender_eq haccepted, saltText_eq, hashText_eq]
        · cases h
    · cases h

/-- New records have accepted parameters. -/
theorem accepted_default : Accepted passwordMemoryKib passwordIterations passwordLanes := by
  constructor <;> decide

/-- The record that is created for a password is parsed as what it was made of. -/
theorem passwordRecordCreate_parses
    {derive : List Char → ℕ → ℕ → ℕ → Bytes passwordSaltSize → Option (Bytes passwordHashSize)}
    {password record : List Char} {salt : Bytes passwordSaltSize}
    (h : passwordRecordCreate (some salt) derive (some password) = some record) :
    ∃ hash, derive password passwordMemoryKib passwordIterations passwordLanes salt = some hash ∧
      passwordParse wide (some record) =
        some ⟨passwordMemoryKib,passwordIterations,passwordLanes,salt,hash⟩ := by
  rw [passwordRecordCreate] at h
  dsimp only at h
  split at h
  · cases h
  · rename_i hash hderive
    refine ⟨hash, hderive, ?_⟩
    split at h
    · cases h
    · split at h
      · rw [← Option.some.inj h]
        exact passwordParse_render accepted_default
      · cases h

/-- Every rendered record is parsed as its parameters, every accepted text is the record of the
parameters as which it is parsed, and so no two texts denote the same parameters. -/
theorem password_records (wide : Bool → ℕ → ℕ) :
    (∀ q : PasswordParameters, Accepted q.memoryKib q.iterations q.lanes →
      passwordParse wide (some (passwordRender q)) = some q) ∧
    (∀ (record : List Char) (q : PasswordParameters), passwordParse wide (some record) = some q →
      record = passwordRender q) ∧
    ∀ (record record' : List Char) (q : PasswordParameters),
      passwordParse wide (some record) = some q → passwordParse wide (some record') = some q →
        record = record' := by
  refine ⟨fun q h => passwordParse_render h, fun record q h => (passwordParse_some h).2, ?_⟩
  intro record record' q h h'
  exact (passwordParse_some h).2.trans (passwordParse_some h').2.symm

/-- Parameters whose salt and hash have bytes of all kinds. -/
def sampleParameters : PasswordParameters :=
  ⟨passwordMinMemoryKib, passwordMaxIterations, passwordMaxLanes,
    ⟨(List.range 16).map fun i => UInt8.ofNat (17*i), by decide⟩,
    ⟨(List.range 32).map fun i => UInt8.ofNat (255-7*i), by decide⟩⟩

theorem password_records_sample :
    passwordParse (fun _ n => n) (some (passwordRender sampleParameters)) = some sampleParameters ∧
    ∀ record, passwordParse (fun _ n => n) (some record) = some sampleParameters →
      record = passwordRender sampleParameters := by
  obtain ⟨hparse, hrender, -⟩ := password_records fun _ n => n
  exact ⟨hparse sampleParameters (by constructor <;> decide),
    fun record h => hrender record sampleParameters h⟩

end LibAtrinik.Password

import LibAtrinik.BigEndian
import LibAtrinik.FuelLoop

namespace LibAtrinik.Stun

section Code

def socketStunMagic : UInt32 := 0x2112a442

/-- The size of the buffer for the response. -/
def responseSize : ℕ := 1024

/-- `n` bytes of a datagram; `none` when they are not all in it. -/
def bytesAt (response : List UInt8) (offset n : ℕ) : Option (List UInt8) :=
  if offset+n ≤ response.length then some ((response.drop offset).take n) else none

def socketStunU16 (response : List UInt8) (offset : ℕ) : Option UInt16 :=
  (bytesAt response offset 2).map fun b => UInt16.ofBitVec (BigEndian.joined 16 b)

def socketStunU32 (response : List UInt8) (offset : ℕ) : Option UInt32 :=
  (bytesAt response offset 4).map fun b => UInt32.ofBitVec (BigEndian.joined 32 b)

/-- A mapped address, as it is given to `inet_ntop`, and its port. -/
structure StunAddress where
  family : UInt8
  address : List UInt8
  port : UInt16
deriving DecidableEq, Repr

/-- How it ends: the address, a failure, or a read at or past the end of the datagram. -/
inductive StunOutcome where
  | outside
  | failed
  | mapped (address : StunAddress)
deriving DecidableEq, Repr

/-- `(value_length + 3) & ~(size_t)3`. -/
def paddedLength (valueLength : ℕ) : ℕ := (valueLength+3)/4*4

/-- The bytes that an address is masked with. -/
def stunMask (id : List UInt8) : List UInt8 := [0x21, 0x12, 0xa4, 0x42] ++ id

def stunPortMask : UInt16 := 0x2112

def addressLength (family : UInt8) : ℕ := if family = 1 then 4 else if family = 2 then 16 else 0

/-- The value of an attribute with a mapped address. -/
def stunMapped (id response : List UInt8) (value valueLength : ℕ) : StunOutcome :=
  match bytesAt response (value+1) 1, socketStunU16 response (value+2) with
  | some [family], some port =>
    if addressLength family = 0 ∨ valueLength < 4+addressLength family then .failed
    else
      match bytesAt response (value+4) (addressLength family) with
      | some bytes => .mapped {
          family := family
          address := List.zipWith (· ^^^ ·) bytes (stunMask id)
          port := port ^^^ stunPortMask }
      | none => .outside
  | _, _ => .outside

/-- One round of the walk, at the attribute that starts at `offset`. -/
def stunRound (id response : List UInt8) (messageLength offset : ℕ) : ℕ ⊕ StunOutcome :=
  if offset+4 ≤ 20+messageLength then
    match socketStunU16 response offset, socketStunU16 response (offset+2) with
    | some type, some valueLength =>
      if offset+4+valueLength.toNat > response.length then .inr .failed
      else if type = 0x0020 ∧ valueLength.toNat ≥ 8 then
        .inr (stunMapped id response (offset+4) valueLength.toNat)
      else .inl (offset+4+paddedLength valueLength.toNat)
    | _, _ => .inr .outside
  else .inr .failed

/-- What `socket_stun_discover` does with the received bytes; `id` is the transaction of its
request. -/
def stunResponse (id response : List UInt8) (fuel : ℕ) : Option StunOutcome :=
  if response.length < 20 then some .failed
  else
    match socketStunU16 response 0, socketStunU32 response 4, bytesAt response 8 12,
      socketStunU16 response 2 with
    | some type, some magic, some transaction, some messageLength =>
      if type ≠ 0x0101 ∨ magic ≠ socketStunMagic ∨ transaction ≠ id then some .failed
      else if messageLength.toNat > response.length-20 then some .failed
      else FuelLoop.run (stunRound id response messageLength.toNat) fuel 20
    | _, _, _, _ => some .outside

/-- A datagram, of which no more is received than the buffer holds. -/
def socketStunDiscover (id datagram : List UInt8) (fuel : ℕ) : Option StunOutcome :=
  stunResponse id (datagram.take responseSize) fuel

end Code

section Reads

variable {response longer bytes : List UInt8} {offset n : ℕ}

theorem bytesAt_eq_some (h : offset+n ≤ response.length) :
    bytesAt response offset n = some ((response.drop offset).take n) := if_pos h

theorem bytesAt_length (h : bytesAt response offset n = some bytes) :
    bytes.length = n ∧ offset+n ≤ response.length := by
  unfold bytesAt at h
  split_ifs at h with hin
  obtain rfl := Option.some.inj h
  rw [List.length_take, List.length_drop]
  exact ⟨by omega, hin⟩

theorem exists_bytesAt (response : List UInt8) (offset n : ℕ) (h : offset+n ≤ response.length) :
    ∃ bytes, bytesAt response offset n = some bytes ∧ bytes.length = n :=
  ⟨_, bytesAt_eq_some h, (bytesAt_length (bytesAt_eq_some h)).1⟩

theorem exists_u16 (response : List UInt8) (offset : ℕ) (h : offset+2 ≤ response.length) :
    ∃ v, socketStunU16 response offset = some v := by
  obtain ⟨b, hb, _⟩ := exists_bytesAt response offset _ h
  exact ⟨_, by rw [socketStunU16, hb]; rfl⟩

theorem exists_u32 (response : List UInt8) (offset : ℕ) (h : offset+4 ≤ response.length) :
    ∃ v, socketStunU32 response offset = some v := by
  obtain ⟨b, hb, _⟩ := exists_bytesAt response offset _ h
  exact ⟨_, by rw [socketStunU32, hb]; rfl⟩

/-- What lies in a datagram is read from every longer one. -/
theorem bytesAt_longer (hlonger : response <+: longer) (h : offset+n ≤ response.length) :
    bytesAt longer offset n = bytesAt response offset n := by
  obtain ⟨more, rfl⟩ := hlonger
  rw [bytesAt_eq_some h, bytesAt_eq_some (by rw [List.length_append]; omega),
    List.drop_append_of_le_length (by omega), List.take_append_of_le_length]
  rw [List.length_drop]
  omega

theorem u16_longer (hlonger : response <+: longer) (h : offset+2 ≤ response.length) :
    socketStunU16 longer offset = socketStunU16 response offset := by
  rw [socketStunU16, socketStunU16, bytesAt_longer hlonger h]

theorem u32_longer (hlonger : response <+: longer) (h : offset+4 ≤ response.length) :
    socketStunU32 longer offset = socketStunU32 response offset := by
  rw [socketStunU32, socketStunU32, bytesAt_longer hlonger h]

end Reads

theorem le_paddedLength (n : ℕ) : n ≤ paddedLength n := by
  unfold paddedLength
  omega

variable {id response : List UInt8} {messageLength offset : ℕ}

/-- An attribute that lies in the datagram gives a mapped address or is refused. -/
theorem stunMapped_inside (id response : List UInt8) (value valueLength : ℕ)
    (hlong : 8 ≤ valueLength) (hin : value+valueLength ≤ response.length) :
    ∃ family, bytesAt response (value+1) 1 = some [family] ∧
      ((addressLength family = 0 ∨ valueLength < 4+addressLength family) ∧
        stunMapped id response value valueLength = .failed ∨
      ¬(addressLength family = 0 ∨ valueLength < 4+addressLength family) ∧
        ∃ address, stunMapped id response value valueLength = .mapped address) := by
  obtain ⟨b, hb, hlength⟩ := exists_bytesAt response (value+1) 1 (by omega)
  obtain ⟨family, rfl⟩ := List.length_eq_one_iff.mp hlength
  obtain ⟨port, hport⟩ := exists_u16 response (value+2) (by omega)
  refine ⟨family, hb, ?_⟩
  unfold stunMapped
  rw [hb, hport]
  dsimp only
  by_cases hbad : addressLength family = 0 ∨ valueLength < 4+addressLength family
  · rw [if_pos hbad]
    exact Or.inl ⟨hbad, rfl⟩
  · obtain ⟨bytes, hbytes, _⟩ := exists_bytesAt response (value+4)
      (addressLength family) (by omega)
    rw [if_neg hbad, hbytes]
    exact Or.inr ⟨hbad, _, rfl⟩

/-- A mapped address that lies in a datagram is the same in every longer one. -/
theorem stunMapped_longer {response longer : List UInt8} (hlonger : response <+: longer)
    (id : List UInt8) (value valueLength : ℕ) (hlong : 8 ≤ valueLength)
    (hin : value+valueLength ≤ response.length) :
    stunMapped id longer value valueLength = stunMapped id response value valueLength := by
  obtain ⟨family, hfamily, _⟩ := stunMapped_inside id response value valueLength hlong hin
  obtain ⟨port, hport⟩ := exists_u16 response (value+2) (by omega)
  unfold stunMapped
  rw [bytesAt_longer hlonger (by omega), u16_longer hlonger (by omega), hfamily, hport]
  dsimp only
  by_cases hbad : addressLength family = 0 ∨ valueLength < 4+addressLength family
  · rw [if_pos hbad, if_pos hbad]
  · rw [if_neg hbad, if_neg hbad, bytesAt_longer hlonger (by omega)]

/-- The rounds of the walk. -/
theorem stunRound_cases (id response : List UInt8) (messageLength offset : ℕ)
    (hmessage : 20+messageLength ≤ response.length) :
    (20+messageLength < offset+4 ∧ stunRound id response messageLength offset = .inr .failed) ∨
    offset+4 ≤ 20+messageLength ∧ ∃ type valueLength,
      socketStunU16 response offset = some type ∧
      socketStunU16 response (offset+2) = some valueLength ∧
      ((response.length < offset+4+valueLength.toNat ∧
          stunRound id response messageLength offset = .inr .failed) ∨
        (offset+4+valueLength.toNat ≤ response.length ∧ type = 0x0020 ∧ 8 ≤ valueLength.toNat ∧
          stunRound id response messageLength offset =
            .inr (stunMapped id response (offset+4) valueLength.toNat)) ∨
        (offset+4+valueLength.toNat ≤ response.length ∧ ¬(type = 0x0020 ∧ 8 ≤ valueLength.toNat) ∧
          stunRound id response messageLength offset =
            .inl (offset+4+paddedLength valueLength.toNat))) := by
  unfold stunRound
  by_cases hend : offset+4 ≤ 20+messageLength
  · obtain ⟨type, htype⟩ := exists_u16 response offset (by omega)
    obtain ⟨valueLength, hlength⟩ := exists_u16 response (offset+2) (by omega)
    refine Or.inr ⟨hend, type, valueLength, htype, hlength, ?_⟩
    rw [if_pos hend, htype, hlength]
    dsimp only
    by_cases hover : offset+4+valueLength.toNat > response.length
    · rw [if_pos hover]
      exact Or.inl ⟨hover, rfl⟩
    rw [if_neg hover]
    by_cases hkind : type = 0x0020 ∧ valueLength.toNat ≥ 8
    · rw [if_pos hkind]
      exact Or.inr (Or.inl ⟨Nat.not_lt.mp hover, hkind.1, hkind.2, rfl⟩)
    · rw [if_neg hkind]
      exact Or.inr (Or.inr ⟨Nat.not_lt.mp hover, hkind, rfl⟩)
  · rw [if_neg hend]
    exact Or.inl ⟨Nat.not_le.mp hend, rfl⟩

/-- A round at an attribute with this type and this length. -/
theorem stunRound_at (id response : List UInt8) (messageLength offset : ℕ)
    (hmessage : 20+messageLength ≤ response.length) (hin : offset+4 ≤ 20+messageLength)
    {type valueLength : UInt16} (htype : socketStunU16 response offset = some type)
    (hlength : socketStunU16 response (offset+2) = some valueLength) :
    (response.length < offset+4+valueLength.toNat ∧
      stunRound id response messageLength offset = .inr .failed) ∨
    (offset+4+valueLength.toNat ≤ response.length ∧ type = 0x0020 ∧ 8 ≤ valueLength.toNat ∧
      stunRound id response messageLength offset =
        .inr (stunMapped id response (offset+4) valueLength.toNat)) ∨
    (offset+4+valueLength.toNat ≤ response.length ∧ ¬(type = 0x0020 ∧ 8 ≤ valueLength.toNat) ∧
      stunRound id response messageLength offset =
        .inl (offset+4+paddedLength valueLength.toNat)) := by
  rcases stunRound_cases id response messageLength offset hmessage with ⟨hend, _⟩ |
    ⟨_, type', valueLength', htype', hlength', hcases⟩
  · omega
  obtain rfl := Option.some.inj (htype.symm.trans htype')
  obtain rfl := Option.some.inj (hlength.symm.trans hlength')
  exact hcases

/-- The walk ends, and reads nothing outside the datagram. -/
theorem walk_ends (id response : List UInt8) (messageLength fuel : ℕ)
    (hmessage : 20+messageLength ≤ response.length) (hfuel : messageLength < fuel) :
    ∃ outcome, FuelLoop.run (stunRound id response messageLength) fuel 20 = some outcome ∧
      outcome ≠ .outside := by
  have hnext (offset next : ℕ) (h : stunRound id response messageLength offset = .inl next) :
      offset+4 ≤ 20+messageLength ∧ offset+4 ≤ next := by
    rcases stunRound_cases id response messageLength offset hmessage with ⟨_, he⟩ |
      ⟨hend, _, valueLength, _, _, ⟨_, he⟩ | ⟨_, _, _, he⟩ | ⟨_, _, he⟩⟩
    · exact nomatch he.symm.trans h
    · exact nomatch he.symm.trans h
    · exact nomatch he.symm.trans h
    · obtain rfl := Sum.inl.inj (he.symm.trans h)
      exact ⟨hend, Nat.le_add_right _ _⟩
  obtain ⟨outcome, hrun⟩ := FuelLoop.run_terminates (stunRound id response messageLength)
    (fun _ => True) (fun offset => 20+messageLength-offset)
    (fun offset next _ h => ⟨trivial, by have := hnext offset next h; omega⟩) fuel 20 trivial
    (by omega)
  refine ⟨outcome, hrun, ?_⟩
  obtain ⟨last, _, hlast⟩ := FuelLoop.run_invariant _ (fun _ => True) (fun _ _ _ _ => trivial)
    fuel 20 outcome trivial hrun
  rcases stunRound_cases id response messageLength last hmessage with ⟨_, he⟩ |
    ⟨_, _, valueLength, _, _, ⟨_, he⟩ | ⟨hin, _, hlong, he⟩ | ⟨_, _, he⟩⟩
  · obtain rfl := Sum.inr.inj (he.symm.trans hlast)
    exact fun h => nomatch h
  · obtain rfl := Sum.inr.inj (he.symm.trans hlast)
    exact fun h => nomatch h
  · obtain rfl := Sum.inr.inj (he.symm.trans hlast)
    obtain ⟨_, _, ⟨_, he⟩ | ⟨_, _, he⟩⟩ := stunMapped_inside id response (last+4) _ hlong hin
    · rw [he]
      exact fun h => nomatch h
    · rw [he]
      exact fun h => nomatch h
  · exact nomatch he.symm.trans hlast

/-- The outcomes of a walk do not depend on the bound. -/
theorem walk_outcome (id response : List UInt8) (messageLength bound : ℕ)
    (hmessage : 20+messageLength ≤ response.length) (hbound : response.length ≤ bound) :
    ∃ outcome, outcome ≠ .outside ∧
      ∀ fuel > bound, FuelLoop.run (stunRound id response messageLength) fuel 20 = some outcome := by
  obtain ⟨outcome, hrun, hinside⟩ := walk_ends id response messageLength (bound+1) hmessage (by omega)
  refine ⟨outcome, hinside, fun fuel hfuel => ?_⟩
  obtain ⟨outcome', hrun', _⟩ := walk_ends id response messageLength fuel hmessage (by omega)
  rw [hrun', FuelLoop.run_unique _ _ _ _ _ _ hrun' hrun]

theorem stunResponse_ends (id response : List UInt8) (bound : ℕ) (hbound : response.length ≤ bound) :
    ∃ outcome, outcome ≠ .outside ∧ ∀ fuel > bound, stunResponse id response fuel = some outcome := by
  have hfailed : ∃ outcome, outcome ≠ .outside ∧
      ∀ fuel > bound, (fun _ => some StunOutcome.failed) fuel = some outcome :=
    ⟨.failed, fun h => (nomatch h), fun _ _ => rfl⟩
  unfold stunResponse
  by_cases hshort : response.length < 20
  · simp only [if_pos hshort]
    exact hfailed
  obtain ⟨type, htype⟩ := exists_u16 response 0 (by omega)
  obtain ⟨magic, hmagic⟩ := exists_u32 response 4 (by omega)
  obtain ⟨transaction, htransaction, _⟩ := exists_bytesAt response 8 12 (by omega)
  obtain ⟨messageLength, hlength⟩ := exists_u16 response 2 (by omega)
  simp only [if_neg hshort, htype, hmagic, htransaction, hlength]
  by_cases hforeign : type ≠ 0x0101 ∨ magic ≠ socketStunMagic ∨ transaction ≠ id
  · simp only [if_pos hforeign]
    exact hfailed
  by_cases hlong : messageLength.toNat > response.length-20
  · simp only [if_neg hforeign, if_pos hlong]
    exact hfailed
  simp only [if_neg hforeign, if_neg hlong]
  exact walk_outcome id response messageLength.toNat bound (by omega) hbound

end LibAtrinik.Stun

import LibAtrinik.PrefixMask
import Mathlib.Data.Fin.VecNotation
import Mathlib.Tactic.IntervalCases

/-! The comparison of addresses and subnets in `socket.c`. Addresses are kept in network order, and
are read by the code as words in the order of the host. A shift by 32 or more bits is undefined. -/
namespace LibAtrinik.Subnet

open PrefixMask

/-- An IPv6 address has a first word. -/
local instance words : NeZero 4 := ⟨four_ne_zero⟩

structure Host where
  bigEndian : Bool
deriving DecidableEq, Repr

def Host.htonl (host : Host) (x : BitVec 32) : BitVec 32 :=
  if host.bigEndian then x else byteSwap x

/-- The part of a `sockaddr_storage` that is compared, in words as the host reads them. -/
inductive Sockaddr where
  | inet (sAddr : BitVec 32)
  | inet6 (sAddr32 : Fin 4 → BitVec 32)
  | other (family : ℕ)

/-- Where the evaluation stops: at an assertion, or at a shift that is not defined. -/
inductive Stop where
  | assertion | undefinedShift
deriving DecidableEq, Repr

/-- `0xffffffff << count`. -/
def shiftOnes (count : ℤ) : Except Stop (BitVec 32) :=
  if 0 ≤ count ∧ count < 32 then .ok (BitVec.allOnes 32 <<< count.toNat) else .error .undefinedShift

/-- The four words of the mask for an IPv6 address, before `htonl`. -/
def inet6MaskWord (plen : ℕ) : Fin 4 → Except Stop (BitVec 32)
  | 0 => if plen ≤ 32 then shiftOnes (32-plen) else .ok 0xffffffff#32
  | 1 => if plen ≤ 32 then .ok 0#32 else if plen > 64 then .ok 0xffffffff#32
    else shiftOnes (32-(plen-32))
  | 2 => if plen ≤ 64 then .ok 0#32 else if plen > 96 then .ok 0xffffffff#32
    else shiftOnes (32-(plen-64))
  | 3 => if plen ≤ 96 then .ok 0#32 else shiftOnes (32-(plen-96))

def inet6Mask (plen : ℕ) : Except Stop (Fin 4 → BitVec 32) := do
  let first ← inet6MaskWord plen 0
  let second ← inet6MaskWord plen 1
  let third ← inet6MaskWord plen 2
  let fourth ← inet6MaskWord plen 3
  return ![first,second,third,fourth]

def socketAddrCmp (host : Host) (a b : Sockaddr) (plen : UInt16) : Except Stop ℤ :=
  match a, b with
  | .inet a, .inet b =>
    if plen.toNat ≤ 32 then do
      let mask ← shiftOnes (32-plen.toNat)
      return if a &&& host.htonl mask = b &&& host.htonl mask then 0 else -1
    else .error .assertion
  | .inet6 a, .inet6 b =>
    if plen.toNat ≤ 128 then do
      let mask ← inet6Mask plen.toNat
      let differs (i : Fin 4) : BitVec 32 := (a i ^^^ b i) &&& host.htonl (mask i)
      return if differs 0 ||| differs 1 ||| differs 2 ||| differs 3 = 0#32 then 0 else 1
    else .error .assertion
  -- Addresses of two families, or of one that is not known.
  | _, _ => .ok (-1)

/-- The two halves of a word in the order in which they are stored. -/
def Host.halves (host : Host) (x : BitVec 32) : BitVec 16 × BitVec 16 :=
  if host.bigEndian then (x.extractLsb' 16 16, x.extractLsb' 0 16)
  else (x.extractLsb' 0 16, x.extractLsb' 16 16)

/-- `sc` is the address of the socket. -/
def socketCmpAddr (host : Host) (sc addr : Sockaddr) (plen : UInt16) : Except Stop ℤ :=
  match sc, addr with
  | .inet6 sc, .inet addr =>
    if sc 0 = 0#32 ∧ sc 1 = 0#32 ∧ (host.halves (sc 2)).1 = 0#16 ∧
        (host.halves (sc 2)).2 = 0xffff#16 then
      socketAddrCmp host (.inet6 sc) (.inet6 (Function.update sc 3 addr)) (96+plen)
    else socketAddrCmp host (.inet6 sc) (.inet addr) plen
  | sc, addr => socketAddrCmp host sc addr plen

/-- The bits of an IPv4 address, beginning with the most significant one. -/
def inetBit (host : Host) (a : BitVec 32) (i : ℕ) : Bool := (host.htonl a).getMsbD i

/-- The bits of an IPv6 address. -/
def inet6Bit (host : Host) (a : Fin 4 → BitVec 32) (i : ℕ) : Bool :=
  if h : i < 128 then (host.htonl (a ⟨i/32, by omega⟩)).getMsbD (i%32) else false

/-- The IPv4-mapped IPv6 address of an IPv4 address. -/
def mapped (host : Host) (a : BitVec 32) : Fin 4 → BitVec 32 :=
  ![0#32, 0#32, host.htonl 0x0000ffff#32, a]

theorem htonl_htonl (host : Host) (x : BitVec 32) : host.htonl (host.htonl x) = x := by
  unfold Host.htonl
  split
  · rfl
  · exact byteSwap_byteSwap x

theorem htonl_and (host : Host) (x y : BitVec 32) :
    host.htonl (x &&& y) = host.htonl x &&& host.htonl y := by
  unfold Host.htonl
  split
  · rfl
  · exact byteSwap_and x y

theorem htonl_xor (host : Host) (x y : BitVec 32) :
    host.htonl (x ^^^ y) = host.htonl x ^^^ host.htonl y := by
  unfold Host.htonl
  split
  · rfl
  · exact byteSwap_xor x y

theorem htonl_inj (host : Host) {x y : BitVec 32} : host.htonl x = host.htonl y ↔ x = y := by
  refine ⟨fun h => ?_, congrArg host.htonl⟩
  rw [← htonl_htonl host x, h, htonl_htonl]

theorem htonl_zero (host : Host) : host.htonl 0#32 = 0#32 := by
  unfold Host.htonl
  split
  · rfl
  · exact byteSwap_zero

/-- Comparing words under a mask compares the first bits of the addresses. -/
theorem inet_masked (host : Host) (a b : BitVec 32) (k : ℕ) :
    a &&& host.htonl (mask 32 k) = b &&& host.htonl (mask 32 k) ↔
      ∀ i < k, inetBit host a i = inetBit host b i := by
  calc a &&& host.htonl (mask 32 k) = b &&& host.htonl (mask 32 k)
      ↔ host.htonl (a &&& host.htonl (mask 32 k)) = host.htonl (b &&& host.htonl (mask 32 k)) :=
        (htonl_inj host).symm
    _ ↔ host.htonl a &&& mask 32 k = host.htonl b &&& mask 32 k := by
        rw [htonl_and, htonl_and, htonl_htonl]
    _ ↔ ∀ i < k, inetBit host a i = inetBit host b i := and_mask_eq_iff _ _ k

theorem differs_eq_zero (host : Host) (a b : BitVec 32) (k : ℕ) :
    (a ^^^ b) &&& host.htonl (mask 32 k) = 0#32 ↔
      ∀ i < k, inetBit host a i = inetBit host b i := by
  calc (a ^^^ b) &&& host.htonl (mask 32 k) = 0#32
      ↔ host.htonl ((a ^^^ b) &&& host.htonl (mask 32 k)) = host.htonl 0#32 :=
        (htonl_inj host).symm
    _ ↔ (host.htonl a ^^^ host.htonl b) &&& mask 32 k = 0#32 := by
        rw [htonl_and, htonl_xor, htonl_htonl, htonl_zero]
    _ ↔ ∀ i < k, inetBit host a i = inetBit host b i := xor_and_mask_eq_zero _ _ k

theorem shiftOnes_eq {count : ℤ} {k : ℕ} (hcount : count = 32-k) (hpos : 0 < k) (hle : k ≤ 32) :
    shiftOnes count = .ok (mask 32 k) := by
  rw [shiftOnes, if_pos (by omega), mask]
  congr 2
  omega

theorem mask_zero : mask 32 0 = 0#32 := by decide

theorem mask_full {k : ℕ} (h : 32 ≤ k) : mask 32 k = 0xffffffff#32 := by
  rw [mask, Nat.sub_eq_zero_of_le h]
  decide

/-- Each word of the mask has the bits of the prefix that are left for it. -/
theorem inet6MaskWord_eq {plen : ℕ} (hpos : 0 < plen) (hle : plen ≤ 128) (j : Fin 4) :
    inet6MaskWord plen j = .ok (mask 32 (plen-32*j.val)) := by
  -- A word behind the first has none, some or all of the bits.
  have hnone (low : ℕ) (h : plen ≤ low) : mask 32 (plen-low) = 0#32 := by
    rw [Nat.sub_eq_zero_of_le h, mask_zero]
  match j with
  | 0 =>
    rw [inet6MaskWord]
    split
    · exact shiftOnes_eq rfl hpos ‹_›
    · exact congrArg _ (mask_full (by simp; omega)).symm
  | 1 =>
    rw [inet6MaskWord]
    split
    · exact congrArg _ (hnone 32 ‹_›).symm
    · split
      · exact congrArg _ (mask_full (by simp; omega)).symm
      · exact shiftOnes_eq (by simp; omega) (by simp; omega) (by simp; omega)
  | 2 =>
    rw [inet6MaskWord]
    split
    · exact congrArg _ (hnone 64 ‹_›).symm
    · split
      · exact congrArg _ (mask_full (by simp; omega)).symm
      · exact shiftOnes_eq (by simp; omega) (by simp; omega) (by simp; omega)
  | 3 =>
    rw [inet6MaskWord]
    split
    · exact congrArg _ (hnone 96 ‹_›).symm
    · exact shiftOnes_eq (by simp; omega) (by simp; omega) (by simp; omega)

theorem inet6Mask_eq {plen : ℕ} (hpos : 0 < plen) (hle : plen ≤ 128) :
    inet6Mask plen = .ok ![mask 32 plen, mask 32 (plen-32), mask 32 (plen-64),
      mask 32 (plen-96)] := by
  rw [inet6Mask, inet6MaskWord_eq hpos hle, inet6MaskWord_eq hpos hle, inet6MaskWord_eq hpos hle,
    inet6MaskWord_eq hpos hle]
  rfl

/-- The mask without any bit is computed with a shift by the whole width. -/
theorem inet6Mask_zero : inet6Mask 0 = .error .undefinedShift := rfl

/-- The first bits of two IPv6 addresses agree when they do in every word. -/
theorem inet6_agree (host : Host) (a b : Fin 4 → BitVec 32) {plen : ℕ} (hle : plen ≤ 128) :
    (∀ i < plen, inet6Bit host a i = inet6Bit host b i) ↔
      ∀ j : Fin 4, ∀ i < plen-32*j.val, inetBit host (a j) i = inetBit host (b j) i := by
  constructor
  · intro h j i hi
    by_cases hword : i < 32
    · have hbit := h (32*j.val+i) (by omega)
      have hdiv : (32*j.val+i)/32 = j.val := by omega
      have hmod : (32*j.val+i)%32 = i := by omega
      have hlt : 32*j.val+i < 128 := by omega
      rw [inet6Bit, inet6Bit, dif_pos hlt, dif_pos hlt] at hbit
      simpa only [inetBit, hdiv, hmod, Fin.eta] using hbit
    · rw [inetBit, inetBit, BitVec.getMsbD_of_ge _ _ (by omega),
        BitVec.getMsbD_of_ge _ _ (by omega)]
  · intro h i hi
    have hlt : i < 128 := by omega
    rw [inet6Bit, inet6Bit, dif_pos hlt, dif_pos hlt]
    exact h ⟨i/32, by omega⟩ (i%32) (by dsimp only; omega)

theorem socketAddrCmp_inet (host : Host) (a b : BitVec 32) {plen : UInt16}
    (hpos : 0 < plen.toNat) (hle : plen.toNat ≤ 32) : ∃ r,
      socketAddrCmp host (.inet a) (.inet b) plen = .ok r ∧
        (r = 0 ↔ ∀ i < plen.toNat, inetBit host a i = inetBit host b i) := by
  refine ⟨_, by rw [socketAddrCmp, if_pos hle, shiftOnes_eq rfl hpos hle]; rfl, ?_⟩
  rw [← inet_masked]
  split
  · exact iff_of_true rfl ‹_›
  · exact iff_of_false (by decide) ‹_›

theorem socketAddrCmp_inet6 (host : Host) (a b : Fin 4 → BitVec 32) {plen : UInt16}
    (hpos : 0 < plen.toNat) (hle : plen.toNat ≤ 128) : ∃ r,
      socketAddrCmp host (.inet6 a) (.inet6 b) plen = .ok r ∧
        (r = 0 ↔ ∀ i < plen.toNat, inet6Bit host a i = inet6Bit host b i) := by
  refine ⟨_, by rw [socketAddrCmp, if_pos hle, inet6Mask_eq hpos hle]; rfl, ?_⟩
  have hall : (∀ i < plen.toNat, inet6Bit host a i = inet6Bit host b i) ↔
      (((a 0 ^^^ b 0) &&& host.htonl (mask 32 plen.toNat)) |||
        ((a 1 ^^^ b 1) &&& host.htonl (mask 32 (plen.toNat-32))) |||
        ((a 2 ^^^ b 2) &&& host.htonl (mask 32 (plen.toNat-64))) |||
        ((a 3 ^^^ b 3) &&& host.htonl (mask 32 (plen.toNat-96)))) = 0#32 := by
    rw [inet6_agree host a b hle, BitVec.or_eq_zero_iff, BitVec.or_eq_zero_iff,
      BitVec.or_eq_zero_iff, differs_eq_zero, differs_eq_zero, differs_eq_zero, differs_eq_zero,
      and_assoc, and_assoc, Fin.forall_fin_succ, Fin.forall_fin_succ, Fin.forall_fin_succ,
      Fin.forall_fin_one]
    rfl
  rw [hall]
  dsimp only
  split
  · exact iff_of_true rfl ‹_›
  · exact iff_of_false (by decide) ‹_›

theorem mapped_bits (host : Host) (a b : BitVec 32) {plen : ℕ} (hle : plen ≤ 32) :
    (∀ i < 96+plen, inet6Bit host (mapped host a) i =
        inet6Bit host (Function.update (mapped host a) 3 b) i) ↔
      ∀ i < plen, inetBit host a i = inetBit host b i := by
  rw [inet6_agree host _ _ (by omega)]
  have hlast (j : Fin 4) (hj : j ≠ 3) :
      Function.update (mapped host a) 3 b j = mapped host a j := Function.update_of_ne hj _ _
  constructor
  · intro h i hi
    have hbit := h 3 i (by simp; omega)
    rwa [Function.update_self] at hbit
  · intro h j i hi
    by_cases hj : j = 3
    · subst hj
      rw [Function.update_self]
      exact h i (by simp at hi; omega)
    · rw [hlast j hj]

/-- A mapped peer is compared like the IPv4 address that it stands for, also with no bits. -/
theorem socketCmpAddr_mapped (host : Host) (a b : BitVec 32) {plen : UInt16}
    (hle : plen.toNat ≤ 32) : ∃ r,
      socketCmpAddr host (.inet6 (mapped host a)) (.inet b) plen = .ok r ∧
        (r = 0 ↔ ∀ i < plen.toNat, inetBit host a i = inetBit host b i) := by
  have hmapped : mapped host a 0 = 0#32 ∧ mapped host a 1 = 0#32 ∧
      (host.halves (mapped host a 2)).1 = 0#16 ∧
      (host.halves (mapped host a 2)).2 = 0xffff#16 := by
    refine ⟨rfl, rfl, ?_⟩
    change (host.halves (host.htonl 0x0000ffff#32)).1 = 0#16 ∧
      (host.halves (host.htonl 0x0000ffff#32)).2 = 0xffff#16
    rcases host with ⟨bigEndian⟩
    cases bigEndian <;> decide
  have hsum : (96+plen : UInt16).toNat = 96+plen.toNat :=
    calc (96+plen : UInt16).toNat = (96+plen.toNat)%2^16 := UInt16.toNat_add 96 plen
      _ = 96+plen.toNat := Nat.mod_eq_of_lt (by omega)
  rw [socketCmpAddr, if_pos hmapped, ← mapped_bits host a b hle, ← hsum]
  exact socketAddrCmp_inet6 host _ _ (by omega) (by omega)

/-- The comparison of two IPv4 addresses returns, and returns zero when the first `plen` bits
agree. -/
def ComparesInet (host : Host) (a b : BitVec 32) (plen : UInt16) : Prop :=
  ∃ r, socketAddrCmp host (.inet a) (.inet b) plen = .ok r ∧
    (r = 0 ↔ ∀ i < plen.toNat, inetBit host a i = inetBit host b i)

/-- The same for two IPv6 addresses. -/
def ComparesInet6 (host : Host) (a b : Fin 4 → BitVec 32) (plen : UInt16) : Prop :=
  ∃ r, socketAddrCmp host (.inet6 a) (.inet6 b) plen = .ok r ∧
    (r = 0 ↔ ∀ i < plen.toNat, inet6Bit host a i = inet6Bit host b i)

/-- A mapped peer and a native one are told apart from an address alike. -/
def ComparesMapped (host : Host) (a b : BitVec 32) (plen : UInt16) : Prop :=
  ∃ r r', socketCmpAddr host (.inet6 (mapped host a)) (.inet b) plen = .ok r ∧
    socketCmpAddr host (.inet a) (.inet b) plen = .ok r' ∧ (r = 0 ↔ r' = 0)

/-- Without a prefix the mask is shifted by 32 bits, whatever is compared. -/
theorem socketAddrCmp_plen_zero (host : Host) {plen : UInt16} (hzero : plen.toNat = 0) :
    (∀ a b, socketAddrCmp host (.inet a) (.inet b) plen = .error .undefinedShift) ∧
      ∀ a b, socketAddrCmp host (.inet6 a) (.inet6 b) plen = .error .undefinedShift := by
  refine ⟨fun a b => ?_, fun a b => ?_⟩
  · rw [socketAddrCmp, hzero, if_pos (by decide)]
    rfl
  · rw [socketAddrCmp, hzero, if_pos (by decide), inet6Mask_zero]
    rfl

/-- Addresses are compared by their first bits exactly when there are any to compare. -/
theorem subnet_compare_iff (host : Host) (plen : UInt16) :
    (plen.toNat ≤ 32 → ∀ a b, ComparesInet host a b plen ↔ plen ≠ 0) ∧
    (plen.toNat ≤ 128 → ∀ a b, ComparesInet6 host a b plen ↔ plen ≠ 0) ∧
    (plen.toNat ≤ 32 → ∀ a b, ComparesMapped host a b plen ↔ plen ≠ 0) := by
  have hpos (h : plen ≠ 0) : 0 < plen.toNat :=
    Nat.pos_of_ne_zero fun hzero => h (UInt16.toNat_inj.mp hzero)
  refine ⟨fun hle a b => ?_, fun hle a b => ?_, fun hle a b => ?_⟩
  · refine ⟨?_, fun h => socketAddrCmp_inet host a b (hpos h) hle⟩
    rintro ⟨r,hr,-⟩ rfl
    rw [(socketAddrCmp_plen_zero host rfl).1] at hr
    cases hr
  · refine ⟨?_, fun h => socketAddrCmp_inet6 host a b (hpos h) hle⟩
    rintro ⟨r,hr,-⟩ rfl
    rw [(socketAddrCmp_plen_zero host rfl).2] at hr
    cases hr
  · constructor
    · rintro ⟨r,r',-,hr',-⟩ rfl
      rw [socketCmpAddr, (socketAddrCmp_plen_zero host rfl).1] at hr'
      · cases hr'
      · rintro _ _ ⟨⟩
    · intro h
      obtain ⟨r,hr,hbits⟩ := socketCmpAddr_mapped host a b hle
      obtain ⟨r',hr',hbits'⟩ := socketAddrCmp_inet host a b (hpos h) hle
      refine ⟨r, r', hr, ?_, hbits.trans hbits'.symm⟩
      rw [socketCmpAddr, hr']
      rintro _ _ ⟨⟩

/-- A little-endian host. -/
def littleEndian : Host := ⟨false⟩

theorem subnet_compare_iff_24 :
    (∀ a b, ComparesInet littleEndian a b 24 ↔ (24 : UInt16) ≠ 0) ∧
    (∀ a b, ComparesInet6 littleEndian a b 128 ↔ (128 : UInt16) ≠ 0) ∧
    ∀ a b, ComparesMapped littleEndian a b 24 ↔ (24 : UInt16) ≠ 0 :=
  ⟨(subnet_compare_iff littleEndian 24).1 (by decide),
    (subnet_compare_iff littleEndian 128).2.1 (by decide),
    (subnet_compare_iff littleEndian 24).2.2 (by decide)⟩

/-- The subnet of all addresses leads to an undefined shift, for which the mapped path has no
need. -/
theorem subnet_compare_no_prefix :
    socketAddrCmp littleEndian (.inet 0x0100007f#32) (.inet 0x0200007f#32) 0 =
        .error .undefinedShift ∧
      socketAddrCmp littleEndian (.inet6 fun _ => 0#32) (.inet6 fun _ => 1#32) 0 =
        .error .undefinedShift ∧
      (∃ r, socketCmpAddr littleEndian (.inet6 (mapped littleEndian 0x0100007f#32))
        (.inet 0x0200007f#32) 0 = .ok r ∧ r = 0) ∧
      ¬ ∀ (host : Host) (a b : BitVec 32) (plen : UInt16), plen.toNat ≤ 32 →
        ComparesInet host a b plen := by
  refine ⟨(socketAddrCmp_plen_zero littleEndian rfl).1 _ _,
    (socketAddrCmp_plen_zero littleEndian rfl).2 _ _, ⟨0, rfl, rfl⟩, fun hall => ?_⟩
  obtain ⟨r,hr,-⟩ := hall littleEndian 0#32 0#32 0 (by decide)
  rw [(socketAddrCmp_plen_zero littleEndian rfl).1] at hr
  cases hr

end LibAtrinik.Subnet

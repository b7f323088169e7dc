import LibAtrinik.MapGrammar

namespace LibAtrinik.MapProtocol

open Packet PrefixGrammar Computability

/-- The bytes of a level, behind its depth and its size. -/
def levelRecord (wireWidth wireHeight : ℤ) (depth : Int8) : Language UInt8 :=
  {[depth.toUInt8]}*⨆ levelSize : UInt32, {BigEndian.bytes 4 levelSize.toNat}*
    (anyBytes levelSize.toNat ⊓ (tileRecord wireWidth wireHeight)∗)

def IsDepth (depth : Int8) : Prop := -map2MaxDepth ≤ depth ∧ depth ≤ map2MaxDepth

instance (depth : Int8) : Decidable (IsDepth depth) := inferInstanceAs (Decidable (_ ∧ _))

/-- Levels of different depths, the one of the player among them. -/
def levels (wireWidth wireHeight : ℤ) : Language UInt8 :=
  ⨆ levelCount, {[levelCount]}*⨆ _ : levelCount ≠ 0 ∧ levelCount ≤ map2Levels,
    ⨆ (depths : List Int8) (_ : depths.length = levelCount.toNat ∧ depths.Nodup ∧
      (∀ d ∈ depths, IsDepth d) ∧ 0 ∈ depths), (depths.map (levelRecord wireWidth wireHeight)).prod

theorem nil_notMem_tileRecord (wireWidth wireHeight : ℤ) :
    [] ∉ tileRecord wireWidth wireHeight := by
  intro h
  obtain ⟨mask, h⟩ := Language.mem_iSup.mp h
  obtain ⟨xs, hxs, ys, _, happend⟩ := Language.mem_mul.mp h
  obtain rfl : xs = BigEndian.bytes 2 mask.toNat := hxs
  have hlen := congrArg List.length happend
  rw [List.length_append, BigEndian.length_bytes, List.length_nil] at hlen
  omega

/-- A level is accepted if it is a sequence of tiles. -/
theorem socketCommandMapValidateLevel_iff (wireWidth wireHeight : ℤ) (level : List UInt8)
    (hlen : level.length ≤ sizeMax) :
    socketCommandMapValidateLevel (packetReaderInit level) wireWidth wireHeight = true ↔
      level ∈ (tileRecord wireWidth wireHeight)∗ := by
  have hg : readerCursor.good (packetReaderInit level) := ⟨rfl, Nat.zero_le _, hlen⟩
  have hrest : readerCursor.rest (packetReaderInit level) = level := rfl
  have hloop (reader : PacketReader) := untilEnd_eq_some
    (fun reader => !decide (reader.pos < reader.data.length)) _ _ (fun reader hg => by
      rw [Bool.not_eq_true', decide_eq_false_iff_not]
      show _ ↔ reader.data.drop reader.pos = []
      rw [List.drop_eq_nil_iff, not_lt])
    (recognizes_tileRecord wireWidth wireHeight) (nil_notMem_tileRecord wireWidth wireHeight)
    (level.length+1) (packetReaderInit level) reader hg (Nat.lt_succ_self _)
  rw [hrest] at hloop
  unfold socketCommandMapValidateLevel
  cases hrun : untilEnd (fun reader => !decide (reader.pos < reader.data.length))
      (validateTile wireWidth wireHeight) ((packetReaderInit level).data.length+1)
      (packetReaderInit level) with
  | none =>
    refine iff_of_false (fun h => nomatch h) fun h => ?_
    have hsome := (hloop _).mpr ⟨h, rfl⟩
    exact nomatch hrun.symm.trans hsome
  | some reader =>
    obtain ⟨hmem, rfl⟩ := (hloop reader).mp hrun
    refine iff_of_true ?_ hmem
    rw [decide_eq_true_iff]
    exact Nat.zero_add _

theorem recognizes_takeLevel (levelMask : UInt16) (depth : Int8) (levelSize : UInt32) :
    Recognizes readerCursor (takeLevel levelMask depth levelSize)
      (fun level => ⨆ _ : levelMask &&& levelBit depth = 0, block levelSize.toNat id level) := by
  refine (Recognizes.guarded fun _ => recognizes_readView levelSize.toNat).of_eq
    fun reader hg => ?_
  unfold takeLevel
  by_cases hmask : levelMask &&& levelBit depth = 0
  · rw [guard, if_pos hmask, if_neg (not_not.mpr hmask), remaining_eq reader hg]
    show _ = checked (fun reader => packetReaderReadView reader levelSize.toNat) reader
    have hview : (packetReaderReadView reader levelSize.toNat).2 =
        (packetReaderTake reader levelSize.toNat).2 := rfl
    unfold checked
    rw [hview]
    rcases packetReaderTake_cases reader hg levelSize.toNat with ⟨herr, _, hlt⟩ | ⟨htake, hle⟩
    · rw [if_pos hlt, if_neg herr]
    · have herr : (packetReaderTake reader levelSize.toNat).2.error = .none := by
        rw [htake]
        exact hg.1
      rw [if_neg (by omega), if_pos herr]
  · rw [guard, if_neg hmask, if_pos hmask, ite_self]
    rfl

/-- The depths that a message can have. -/
def depths : List Int8 := [-6, -5, -4, -3, -2, -1, 0, 1, 2, 3, 4, 5, 6]

theorem mem_depths (d : Int8) (h : IsDepth d) : d ∈ depths := by
  have hall : ∀ b : BitVec 8, -map2MaxDepth ≤ Int8.ofBitVec b → Int8.ofBitVec b ≤ map2MaxDepth →
      Int8.ofBitVec b ∈ depths := by decide
  exact hall d.toBitVec h.1 h.2

theorem levelBit_and : ∀ d ∈ depths, ∀ e ∈ depths, (levelBit d &&& levelBit e ≠ 0 ↔ e = d) := by
  decide +kernel

/-- The mask is a set of depths. -/
theorem levelMask_or (levelMask : UInt16) (d e : Int8) (hd : IsDepth d) (he : IsDepth e) :
    (levelMask ||| levelBit d) &&& levelBit e ≠ 0 ↔ e = d ∨ levelMask &&& levelBit e ≠ 0 := by
  have hdistrib : (levelMask ||| levelBit d) &&& levelBit e =
      levelMask &&& levelBit e ||| levelBit d &&& levelBit e :=
    UInt16.toBitVec_inj.mp BitVec.and_or_distrib_right
  rw [hdistrib, Ne, UInt16.or_eq_zero_iff, not_and_or, or_comm]
  exact or_congr_left (levelBit_and d (mem_depths d hd) e (mem_depths e he))

theorem recognizes_levelRecord (wireWidth wireHeight : ℤ) (levelMask : UInt16) :
    Recognizes readerCursor (validateLevel wireWidth wireHeight levelMask)
      (fun levelMask' => ⨆ (depth) (_ : IsDepth depth ∧ ¬levelMask &&& levelBit depth ≠ 0 ∧
        levelMask' = levelMask ||| levelBit depth), levelRecord wireWidth wireHeight depth) := by
  have hcheck (depth : Int8) (level : List UInt8) := Recognizes.guarded
    (p := socketCommandMapValidateLevel (packetReaderInit level) wireWidth wireHeight = true)
    fun _ => recognizes_pure (c := readerCursor) (levelMask ||| levelBit depth)
  refine (recognizes_readInt8.bind fun depth => recognizes_readUint32.bind fun levelSize =>
    Recognizes.guarded (p := -map2MaxDepth ≤ depth ∧ depth ≤ map2MaxDepth) fun _ =>
      (recognizes_takeLevel levelMask depth levelSize).bind fun level => hcheck depth level).congr
    fun levelMask' => Language.ext fun word => ?_
  simp only [levelRecord, Language.mem_iSup, Language.mem_mul]
  constructor
  · rintro ⟨depth, _, rfl, _, ⟨levelSize, _, rfl, _, ⟨hdepth, level, xs, ⟨hmask, hlen, rfl⟩, _,
      ⟨hlevel, rfl, rfl⟩, rfl⟩, rfl⟩, rfl⟩
    have hmax : xs.length ≤ sizeMax := by
      rw [hlen]
      exact levelSize.toNat_lt.le.trans (by decide)
    rw [List.append_nil]
    exact ⟨depth, ⟨hdepth, not_not.mpr hmask, rfl⟩, _, rfl, _, ⟨levelSize, _, rfl, xs,
      ⟨hlen, (socketCommandMapValidateLevel_iff wireWidth wireHeight xs hmax).mp hlevel⟩, rfl⟩, rfl⟩
  · rintro ⟨depth, ⟨hdepth, hmask, rfl⟩, _, rfl, _, ⟨levelSize, _, rfl, xs, ⟨hlen, htiles⟩, rfl⟩,
      rfl⟩
    have hlen' : xs.length = levelSize.toNat := hlen
    have hmax : xs.length ≤ sizeMax := by
      rw [hlen']
      exact levelSize.toNat_lt.le.trans (by decide)
    refine ⟨depth, _, rfl, _, ⟨levelSize, _, rfl, _, ⟨hdepth, xs, xs, ⟨not_not.mp hmask, hlen, rfl⟩,
      [], ⟨?_, rfl, rfl⟩, rfl⟩, rfl⟩, ?_⟩
    · exact (socketCommandMapValidateLevel_iff wireWidth wireHeight xs hmax).mpr htiles
    · rw [List.append_nil]

/-- The levels, with the mask of their depths. -/
def maskedLevels (wireWidth wireHeight : ℤ) (levelMask : UInt16) : Language UInt8 :=
  ⨆ levelCount, {[levelCount]}*⨆ _ : levelCount ≠ 0 ∧ levelCount ≤ map2Levels,
    ⨆ (keys) (_ : Fresh IsDepth (fun levelMask d => levelMask &&& levelBit d ≠ 0)
      (fun levelMask d => levelMask ||| levelBit d) levelCount.toNat 0 levelMask keys),
      (keys.map (levelRecord wireWidth wireHeight)).prod

/-- The test of the mask at the end asks for the level of the player. -/
theorem mem_levels (wireWidth wireHeight : ℤ) (word : List UInt8) :
    word ∈ levels wireWidth wireHeight ↔
      ∃ levelMask, word ∈ maskedLevels wireWidth wireHeight levelMask ∧
        levelMask &&& levelBit 0 ≠ 0 := by
  have hzero : IsDepth 0 := by decide
  have hmask (keys : List Int8) (hkeys : ∀ d ∈ keys, IsDepth d) :
      keys.foldl (fun levelMask d => levelMask ||| levelBit d) 0 &&& levelBit 0 ≠ 0 ↔
        0 ∈ keys := by
    refine (marked_foldl IsDepth (fun levelMask d => levelMask &&& levelBit d ≠ 0) _ levelMask_or
      keys hkeys 0 0 hzero).trans (or_iff_left ?_)
    decide
  simp only [levels, maskedLevels, Language.mem_iSup, Language.mem_mul]
  constructor
  · rintro ⟨levelCount, xs, hxs, ys, ⟨hcount, keys, ⟨hlen, hnodup, hkeys, hmem⟩, hys⟩, rfl⟩
    have hfresh : ∀ d ∈ keys, IsDepth d ∧ ¬(0 : UInt16) &&& levelBit d ≠ 0 := fun d hd =>
      ⟨hkeys d hd, not_not.mpr (UInt16.toBitVec_inj.mp BitVec.zero_and)⟩
    exact ⟨_, ⟨levelCount, xs, hxs, ys, ⟨hcount, keys, ⟨hlen, hnodup, hfresh, rfl⟩, hys⟩, rfl⟩,
      (hmask keys hkeys).mpr hmem⟩
  · rintro ⟨_, ⟨levelCount, xs, hxs, ys, ⟨hcount, keys, ⟨hlen, hnodup, hkeys, rfl⟩, hys⟩, rfl⟩,
      hbit⟩
    have hdepths : ∀ d ∈ keys, IsDepth d := fun d hd => (hkeys d hd).1
    exact ⟨levelCount, xs, hxs, ys,
      ⟨hcount, keys, ⟨hlen, hnodup, hdepths, (hmask keys hdepths).mp hbit⟩, hys⟩, rfl⟩

end LibAtrinik.MapProtocol

import LibAtrinik.MapProtocol

namespace LibAtrinik.MapProtocol

open Packet PrefixGrammar Computability

/-- Any `n` bytes. -/
def anyBytes (n : ℕ) : Language UInt8 := { word | word.length = n }

/-- One byte with a property. -/
def byteWith (p : UInt8 → Prop) : Language UInt8 := ⨆ b, {[b]}*⨆ _ : p b, 1

/-- A string that ends with a zero. -/
def text : Language UInt8 := ⨆ s, terminated packetPayloadMax s

def animation : Language UInt8 :=
  anyBytes 2*⨆ animFlags, {[animFlags]}*⨆ _ : animFlags &&& ~~~knownAnimFlags = 0,
    present (animFlags &&& animFlagMoving ≠ 0) (anyBytes 1)

def moreFields : Language UInt8 :=
  ⨆ flags2 : UInt32, {BigEndian.bytes 4 flags2.toNat}*⨆ _ : flags2 &&& ~~~knownFlags2 = 0,
    present (flags2 &&& map2Flag2Alpha ≠ 0) (anyBytes 1)*
    (present (flags2 &&& map2Flag2Rotate ≠ 0) (anyBytes 2)*
    (present (flags2 &&& map2Flag2Zoom ≠ 0) (anyBytes 4)*
    (present (flags2 &&& map2Flag2Target ≠ 0) (anyBytes 4*byteWith (· ≤ 1))*
    (present (flags2 &&& map2Flag2Probe ≠ 0) (byteWith (· ≤ 100))*
    present (flags2 &&& map2Flag2Glow ≠ 0) (text*anyBytes 1)))))

/-- A layer with an object: its face and color, and what the flags demand. -/
def object : Language UInt8 :=
  anyBytes 3*⨆ flags, {[flags]}*
    (present (flags &&& map2FlagMulti ≠ 0) (anyBytes 1)*
    (present (flags &&& map2FlagName ≠ 0) (text*text)*
    (present (flags &&& map2FlagAnimation ≠ 0) animation*
    (present (flags &&& map2FlagHeight ≠ 0) (anyBytes 2)*
    (present (flags &&& map2FlagAlign ≠ 0) (anyBytes 2)*
    present (flags &&& map2FlagMore ≠ 0) moreFields)))))

/-- A layer is cleared, or its number is followed by an object. -/
def layerRecord (layer : UInt8) : Language UInt8 :=
  {[map2LayerClear, layer]}+{[layer]}*object

def layers : Language UInt8 :=
  ⨆ numLayers, {[numLayers]}*⨆ _ : numLayers ≤ map2ProtocolRealLayers,
    distinct (· < map2ProtocolRealLayers) layerRecord numLayers.toNat

def extAnim (subLayer : UInt8) : Language UInt8 :=
  {[subLayer]}*(byteWith (fun animType => animType = animDamage ∨ animType = animKill)*anyBytes 2)

def extAnims : Language UInt8 :=
  ⨆ animNum, {[animNum]}*⨆ _ : animNum ≤ map2ProtocolSubLayers,
    distinct (· < map2ProtocolSubLayers) extAnim animNum.toNat

def extFields : Language UInt8 :=
  ⨆ extFlags, {[extFlags]}*⨆ _ : extFlags &&& ~~~map2FlagExtAnim = 0,
    present (extFlags &&& map2FlagExtAnim ≠ 0) extAnims

/-- What follows the mask of a tile that is not cleared. -/
def contents (values : UInt16) : Language UInt8 :=
  present (values &&& map2MaskSupportHeight ≠ 0) (anyBytes 2)*
  (present (values &&& map2MaskFow ≠ 0) (byteWith (· ≤ 1))*
  (present (values &&& map2MaskLightLevel ≠ 0) (anyBytes 1)*
  (present (values &&& map2MaskLightLevelMore ≠ 0) (anyBytes 6)*
  (layers*extFields))))

/-- The masks of a cleared tile have no bits but the two that clear it; the second of them is
not for other tiles. -/
def tileRecord (wireWidth wireHeight : ℤ) : Language UInt8 :=
  ⨆ mask : UInt16, {BigEndian.bytes 2 mask.toNat}*
    ⨆ _ : maskX mask < wireWidth ∧ maskY mask < wireHeight ∧ mask &&& 0x3f &&& ~~~knownMask = 0,
      if mask &&& 0x3f &&& map2MaskClear ≠ 0 then
        ⨆ _ : mask &&& 0x3f &&& ~~~(map2MaskClear ||| map2MaskHardClear) = 0, 1
      else ⨆ _ : mask &&& 0x3f &&& map2MaskHardClear = 0, contents (mask &&& 0x3f)

theorem recognizes_mapPacketSkip (n : ℕ) :
    Recognizes readerCursor (mapPacketSkip n) (fun _ => anyBytes n) := by
  intro reader hg _ reader'
  unfold mapPacketSkip
  dsimp only
  rcases packetReaderSkip_cases reader hg n with ⟨hno, hlt⟩ | ⟨hyes, hle⟩
  · rw [hno]
    refine iff_of_false (fun h => nomatch h) ?_
    rintro ⟨word, hw, hpre, _⟩
    have hlen : word.length = n := hw
    have hword := hpre.length_le
    omega
  · rw [hyes]
    constructor
    · intro h
      obtain rfl := (Prod.mk.inj (Option.some.inj h)).2
      have hlen : ((readerCursor.rest reader).take n).length = n := List.length_take_of_le hle
      refine ⟨_, hlen, List.take_prefix _ _, ?_⟩
      rw [hlen]
    · rintro ⟨word, hw, _, rfl⟩
      obtain rfl : word.length = n := hw
      rfl

theorem recognizes_mapPacketSkipString :
    Recognizes readerCursor mapPacketSkipString (fun _ => text) := by
  refine ((recognizes_readStringView packetPayloadMax).bind fun _ => recognizes_unit).congr ?_
  intro _
  unfold text
  simp only [mul_one]

/-- A byte that is tested and then forgotten. -/
theorem recognizes_byteWith (p : UInt8 → Prop) [DecidablePred p] :
    Recognizes readerCursor (mapPacketReadUint8 >>= fun b => guard (p b))
      (fun _ => byteWith p) :=
  recognizes_readUint8.bind fun _ => recognizes_guard

theorem recognizes_animation :
    Recognizes readerCursor validateAnimation (fun _ => animation) :=
  (recognizes_mapPacketSkip 2).andThen (recognizes_readUint8.bind fun _ =>
    Recognizes.guarded fun _ => recognizes_whenever (recognizes_mapPacketSkip 1))

theorem recognizes_moreFields :
    Recognizes readerCursor validateMore (fun _ => moreFields) := by
  refine recognizes_readUint32.bind fun flags2 => Recognizes.guarded fun _ => ?_
  apply (recognizes_whenever (recognizes_mapPacketSkip 1)).andThen
  apply (recognizes_whenever (recognizes_mapPacketSkip 2)).andThen
  apply (recognizes_whenever (recognizes_mapPacketSkip 4)).andThen
  apply (recognizes_whenever ((recognizes_mapPacketSkip 4).andThen
    (recognizes_byteWith (· ≤ 1)))).andThen
  apply (recognizes_whenever (recognizes_byteWith (· ≤ 100))).andThen
  exact recognizes_whenever (recognizes_mapPacketSkipString.andThen (recognizes_mapPacketSkip 1))

theorem recognizes_object : Recognizes readerCursor validateObject (fun _ => object) := by
  refine (recognizes_mapPacketSkip 3).andThen (recognizes_readUint8.bind fun flags => ?_)
  apply (recognizes_whenever (recognizes_mapPacketSkip 1)).andThen
  apply (recognizes_whenever
    (recognizes_mapPacketSkipString.andThen recognizes_mapPacketSkipString)).andThen
  apply (recognizes_whenever recognizes_animation).andThen
  apply (recognizes_whenever (recognizes_mapPacketSkip 2)).andThen
  apply (recognizes_whenever (recognizes_mapPacketSkip 2)).andThen
  exact recognizes_whenever recognizes_moreFields

/-- One layer: the next round knows that it has been seen. -/
theorem recognizes_layerRecord (seen : UInt8 → Bool) :
    Recognizes readerCursor (validateLayer seen)
      (fun seen' => ⨆ (layer) (_ : layer < map2ProtocolRealLayers ∧ ¬seen layer = true ∧
        seen' = Function.update seen layer true), layerRecord layer) := by
  have hlayer (type : UInt8) := recognizes_ite (p := type = map2LayerClear)
    (fun _ => recognizes_readUint8) (fun _ => recognizes_pure (c := readerCursor) type)
  have hrest (type layer : UInt8) := Recognizes.guarded
    (p := layer < map2ProtocolRealLayers ∧ seen layer = false) fun _ =>
      (recognizes_whenever (p := type ≠ map2LayerClear) recognizes_object).andThen
        (recognizes_pure (c := readerCursor) (Function.update seen layer true))
  refine (recognizes_readUint8.bind fun type => (hlayer type).bind fun layer =>
    hrest type layer).congr fun seen' => Language.ext fun word => ?_
  simp only [Language.mem_iSup, Language.mem_mul]
  constructor
  · rintro ⟨type, _, rfl, _, ⟨layer, ys, hys, _, ⟨⟨hlt, hfree⟩, zs, hzs, _, ⟨rfl, rfl⟩, rfl⟩, rfl⟩,
      rfl⟩
    refine ⟨layer, ⟨hlt, Bool.eq_false_iff.mp hfree, rfl⟩, ?_⟩
    rw [List.append_nil]
    by_cases hclear : type = map2LayerClear
    · rw [if_pos hclear] at hys
      rw [present, if_neg (not_not.mpr hclear)] at hzs
      obtain rfl : ys = [layer] := hys
      obtain rfl : zs = [] := hzs
      exact Or.inl (congrArg (· :: [layer]) hclear)
    · rw [if_neg hclear] at hys
      rw [present, if_pos hclear] at hzs
      obtain ⟨rfl, rfl⟩ := Language.mem_iSup.mp hys
      exact Or.inr (Language.append_mem_mul rfl hzs)
  · rintro ⟨layer, ⟨hlt, hfree, rfl⟩, hclear | hobject⟩
    · obtain rfl : word = [map2LayerClear, layer] := hclear
      refine ⟨map2LayerClear, _, rfl, _, ⟨layer, [layer], ?_, _,
        ⟨⟨hlt, Bool.eq_false_iff.mpr hfree⟩, [], ?_, [], ⟨rfl, rfl⟩, rfl⟩, rfl⟩, rfl⟩
      · rw [if_pos rfl]
        exact rfl
      · rw [present, if_neg (not_not.mpr rfl)]
        exact rfl
    · obtain ⟨_, rfl, zs, hzs, rfl⟩ := Language.mem_mul.mp hobject
      have hclear : layer ≠ map2LayerClear := by
        rintro rfl
        exact absurd hlt (by decide)
      refine ⟨layer, _, rfl, _, ⟨layer, [], ?_, _,
        ⟨⟨hlt, Bool.eq_false_iff.mpr hfree⟩, zs, ?_, [], ⟨rfl, rfl⟩, rfl⟩, rfl⟩, ?_⟩
      · rw [if_neg hclear]
        exact Language.mem_iSup.mpr ⟨rfl, rfl⟩
      · rw [present, if_pos hclear]
        exact hzs
      · rw [List.append_nil]
        rfl

/-- The array of what has been seen is a set of marks. -/
theorem seen_update (p : UInt8 → Prop) (seen : UInt8 → Bool) (i j : UInt8) (_ : p i) (_ : p j) :
    Function.update seen i true j = true ↔ j = i ∨ seen j = true := by
  by_cases h : j = i
  · subst h
    simp
  · simp [h]

theorem recognizes_extAnim (seen : UInt8 → Bool) :
    Recognizes readerCursor (validateExtAnim seen)
      (fun seen' => ⨆ (subLayer) (_ : subLayer < map2ProtocolSubLayers ∧ ¬seen subLayer = true ∧
        seen' = Function.update seen subLayer true), extAnim subLayer) := by
  have hrest (subLayer animType : UInt8) := Recognizes.guarded
    (p := subLayer < map2ProtocolSubLayers ∧ seen subLayer = false ∧
      (animType = animDamage ∨ animType = animKill)) fun _ =>
      (recognizes_mapPacketSkip 2).andThen
        (recognizes_pure (c := readerCursor) (Function.update seen subLayer true))
  refine (recognizes_readUint8.bind fun subLayer => recognizes_readUint8.bind fun animType =>
    hrest subLayer animType).congr fun seen' => Language.ext fun word => ?_
  simp only [extAnim, byteWith, Language.mem_iSup, Language.mem_mul]
  constructor
  · rintro ⟨subLayer, _, rfl, _, ⟨animType, _, rfl, _,
      ⟨⟨hlt, hfree, htype⟩, zs, hzs, _, ⟨rfl, rfl⟩, rfl⟩, rfl⟩, rfl⟩
    refine ⟨subLayer, ⟨hlt, Bool.eq_false_iff.mp hfree, rfl⟩, _, rfl, _, ⟨_, ⟨animType, _, rfl, [],
      ⟨htype, rfl⟩, rfl⟩, zs, hzs, rfl⟩, ?_⟩
    rw [List.append_nil, List.append_nil]
  · rintro ⟨subLayer, ⟨hlt, hfree, rfl⟩, _, rfl, _, ⟨_, ⟨animType, _, rfl, _, ⟨htype, rfl⟩, rfl⟩,
      zs, hzs, rfl⟩, rfl⟩
    refine ⟨subLayer, _, rfl, _, ⟨animType, _, rfl, _,
      ⟨⟨hlt, Bool.eq_false_iff.mpr hfree, htype⟩, zs, hzs, [], ⟨rfl, rfl⟩, rfl⟩, rfl⟩, ?_⟩
    rw [List.append_nil, List.append_nil]

theorem recognizes_extFields : Recognizes readerCursor validateExt (fun _ => extFields) := by
  refine recognizes_readUint8.bind fun extFlags => Recognizes.guarded fun _ =>
    recognizes_whenever ?_
  refine recognizes_readUint8.bind fun animNum => Recognizes.guarded fun _ => ?_
  refine (Recognizes.loopThen validateExtAnim (· < map2ProtocolSubLayers)
    (fun seen i => seen i = true) (fun seen i => Function.update seen i true) extAnim
    (seen_update _) recognizes_extAnim animNum.toNat (fun _ => false) (fun _ h => nomatch h)
    recognizes_unit).congr fun _ => mul_one _

theorem recognizes_contents (values : UInt16) :
    Recognizes readerCursor (validateContents values)
      (fun _ => ⨆ _ : values &&& map2MaskHardClear = 0, contents values) := by
  refine Recognizes.guarded fun _ => ?_
  apply (recognizes_whenever (recognizes_mapPacketSkip 2)).andThen
  apply (recognizes_whenever (recognizes_byteWith (· ≤ 1))).andThen
  apply (recognizes_whenever (recognizes_mapPacketSkip 1)).andThen
  apply (recognizes_whenever (recognizes_mapPacketSkip 6)).andThen
  have hlayers (numLayers : UInt8) := Recognizes.loopThen validateLayer
    (· < map2ProtocolRealLayers) (fun seen i => seen i = true)
    (fun seen i => Function.update seen i true) layerRecord (seen_update _)
    recognizes_layerRecord numLayers.toNat (fun _ => false) (fun _ h => nomatch h)
    recognizes_extFields
  refine (recognizes_readUint8.bind fun numLayers => Recognizes.guarded
    (p := numLayers ≤ map2ProtocolRealLayers) fun _ => hlayers numLayers).congr fun _ => ?_
  simp only [layers, Language.iSup_mul, mul_assoc]

theorem recognizes_tileRecord (wireWidth wireHeight : ℤ) :
    Recognizes readerCursor (validateTile wireWidth wireHeight)
      (fun _ => tileRecord wireWidth wireHeight) :=
  recognizes_readUint16.bind fun _ => Recognizes.guarded fun _ =>
    recognizes_ite (fun _ => recognizes_guard) fun _ => recognizes_contents _

end LibAtrinik.MapProtocol

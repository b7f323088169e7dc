import LibAtrinik.PacketReader

/-! The validator of the `CLIENT_CMD_MAP` wire format. A C function that returns false at the first
violation is a computation that fails there. -/
namespace LibAtrinik.MapProtocol

open Packet PrefixGrammar

def mapUpdateCmdSame : UInt8 := 0
def mapUpdateCmdNew : UInt8 := 1
def mapUpdateCmdConnected : UInt8 := 2

def mapUpdateTileMin : UInt8 := 1
def mapUpdateTileUp : UInt8 := 9
def mapUpdateTileDown : UInt8 := 10
def mapUpdateTileMax : UInt8 := mapUpdateTileDown

def map2MaxDepth : Int8 := 6
def map2Levels : UInt8 := 13
def map2ProtocolSubLayers : UInt8 := 7
def map2ProtocolRealLayers : UInt8 := 49

def map2FlagMulti : UInt8 := 1
def map2FlagName : UInt8 := 2
def map2FlagAnimation : UInt8 := 4
def map2FlagHeight : UInt8 := 8
def map2FlagAlign : UInt8 := 32
def map2FlagMore : UInt8 := 128

def map2Flag2Alpha : UInt32 := 1
def map2Flag2Rotate : UInt32 := 2
def map2Flag2Zoom : UInt32 := 4
def map2Flag2Target : UInt32 := 8
def map2Flag2Probe : UInt32 := 16
def map2Flag2Priority : UInt32 := 32
def map2Flag2Secondpass : UInt32 := 64
def map2Flag2Glow : UInt32 := 128
def map2Flag2Roof : UInt32 := 256
def map2Flag2Door : UInt32 := 512

def map2FlagExtAnim : UInt8 := 1
def animDamage : UInt8 := 1
def animKill : UInt8 := 2

def map2MaskSupportHeight : UInt16 := 0x1
def map2MaskClear : UInt16 := 0x2
def map2MaskHardClear : UInt16 := 0x10
def map2MaskLightLevel : UInt16 := 0x4
def map2MaskLightLevelMore : UInt16 := 0x8
def map2MaskFow : UInt16 := 0x20

def map2LayerClear : UInt8 := 255

def animFlagMoving : UInt8 := 0x01
def animFlagAttacking : UInt8 := 0x02
def animFlagStopMoving : UInt8 := 0x04
def animFlagStopAttacking : UInt8 := 0x08

def knownMask : UInt16 :=
  map2MaskSupportHeight ||| map2MaskClear ||| map2MaskHardClear ||| map2MaskLightLevel |||
    map2MaskLightLevelMore ||| map2MaskFow

def knownFlags2 : UInt32 :=
  map2Flag2Alpha ||| map2Flag2Rotate ||| map2Flag2Zoom ||| map2Flag2Target ||| map2Flag2Probe |||
    map2Flag2Priority ||| map2Flag2Secondpass ||| map2Flag2Glow ||| map2Flag2Roof |||
    map2Flag2Door

def knownAnimFlags : UInt8 :=
  animFlagMoving ||| animFlagAttacking ||| animFlagStopMoving ||| animFlagStopAttacking

abbrev Validation := StateT PacketReader Option

def mapPacketSkip (size : ℕ) : Validation Unit := fun reader =>
  let skipped := packetReaderSkip reader size
  if skipped.1 then some ((), skipped.2) else none

def mapPacketReadUint8 : Validation UInt8 := checked packetReaderReadUint8
def mapPacketReadInt8 : Validation Int8 := checked packetReaderReadInt8
def mapPacketReadUint16 : Validation UInt16 := checked packetReaderReadUint16
def mapPacketReadUint32 : Validation UInt32 := checked packetReaderReadUint32

def mapPacketSkipString : Validation Unit := do
  let _ ← checked fun reader => packetReaderReadStringView reader packetPayloadMax
  pure ()

-- The parts of `socket_command_map_validate_level`, from the inside out.

def validateAnimation : Validation Unit := do
  mapPacketSkip 2
  let animFlags ← mapPacketReadUint8
  guard (animFlags &&& ~~~knownAnimFlags = 0)
  whenever (animFlags &&& animFlagMoving ≠ 0) (mapPacketSkip 1)

def validateTarget : Validation Unit := do
  mapPacketSkip 4
  let targetIsFriend ← mapPacketReadUint8
  guard (targetIsFriend ≤ 1)

def validateProbe : Validation Unit := do
  let probe ← mapPacketReadUint8
  guard (probe ≤ 100)

def validateGlow : Validation Unit := do
  mapPacketSkipString
  mapPacketSkip 1

/-- The fields announced by `flags2`. -/
def validateMore : Validation Unit := do
  let flags2 ← mapPacketReadUint32
  guard (flags2 &&& ~~~knownFlags2 = 0)
  whenever (flags2 &&& map2Flag2Alpha ≠ 0) (mapPacketSkip 1)
  whenever (flags2 &&& map2Flag2Rotate ≠ 0) (mapPacketSkip 2)
  whenever (flags2 &&& map2Flag2Zoom ≠ 0) (mapPacketSkip (2*2))
  whenever (flags2 &&& map2Flag2Target ≠ 0) validateTarget
  whenever (flags2 &&& map2Flag2Probe ≠ 0) validateProbe
  whenever (flags2 &&& map2Flag2Glow ≠ 0) validateGlow

def validateNames : Validation Unit := do
  mapPacketSkipString
  mapPacketSkipString

/-- What follows the number of a layer that is not cleared. -/
def validateObject : Validation Unit := do
  mapPacketSkip (2+1)
  let flags ← mapPacketReadUint8
  whenever (flags &&& map2FlagMulti ≠ 0) (mapPacketSkip 1)
  whenever (flags &&& map2FlagName ≠ 0) validateNames
  whenever (flags &&& map2FlagAnimation ≠ 0) validateAnimation
  whenever (flags &&& map2FlagHeight ≠ 0) (mapPacketSkip 2)
  whenever (flags &&& map2FlagAlign ≠ 0) (mapPacketSkip 2)
  whenever (flags &&& map2FlagMore ≠ 0) validateMore

/-- The number of the layer to be cleared comes after the type. -/
def layerOfType (type : UInt8) : Validation UInt8 :=
  if type = map2LayerClear then mapPacketReadUint8 else pure type

/-- One round of the loop over the layers; `seen` is the array of the layers seen before. -/
def validateLayer (seen : UInt8 → Bool) : Validation (UInt8 → Bool) := do
  let type ← mapPacketReadUint8
  let layer ← layerOfType type
  guard (layer < map2ProtocolRealLayers ∧ seen layer = false)
  whenever (type ≠ map2LayerClear) validateObject
  pure (Function.update seen layer true)

/-- One round of the loop over the animations of a tile. -/
def validateExtAnim (seen : UInt8 → Bool) : Validation (UInt8 → Bool) := do
  let subLayer ← mapPacketReadUint8
  let animType ← mapPacketReadUint8
  guard (subLayer < map2ProtocolSubLayers ∧ seen subLayer = false ∧
    (animType = animDamage ∨ animType = animKill))
  mapPacketSkip 2
  pure (Function.update seen subLayer true)

def validateExtAnims : Validation Unit := do
  let animNum ← mapPacketReadUint8
  guard (animNum ≤ map2ProtocolSubLayers)
  let _ ← loop validateExtAnim animNum.toNat fun _ => false
  pure ()

def validateExt : Validation Unit := do
  let extFlags ← mapPacketReadUint8
  guard (extFlags &&& ~~~map2FlagExtAnim = 0)
  whenever (extFlags &&& map2FlagExtAnim ≠ 0) validateExtAnims

def validateFow : Validation Unit := do
  let fow ← mapPacketReadUint8
  guard (fow ≤ 1)

/-- A tile that is not cleared, from the optional fields of its mask on. -/
def validateContents (values : UInt16) : Validation Unit := do
  guard (values &&& map2MaskHardClear = 0)
  whenever (values &&& map2MaskSupportHeight ≠ 0) (mapPacketSkip 2)
  whenever (values &&& map2MaskFow ≠ 0) validateFow
  whenever (values &&& map2MaskLightLevel ≠ 0) (mapPacketSkip 1)
  whenever (values &&& map2MaskLightLevelMore ≠ 0) (mapPacketSkip (map2ProtocolSubLayers-1).toNat)
  let numLayers ← mapPacketReadUint8
  guard (numLayers ≤ map2ProtocolRealLayers)
  let _ ← loop validateLayer numLayers.toNat fun _ => false
  validateExt

def maskX (mask : UInt16) : ℤ := (mask >>> 11 &&& 0x1f).toNat
def maskY (mask : UInt16) : ℤ := (mask >>> 6 &&& 0x1f).toNat

/-- One round of the loop over the tiles. -/
def validateTile (wireWidth wireHeight : ℤ) : Validation Unit := do
  let mask ← mapPacketReadUint16
  let values := mask &&& 0x3f
  guard (maskX mask < wireWidth ∧ maskY mask < wireHeight ∧ values &&& ~~~knownMask = 0)
  if values &&& map2MaskClear ≠ 0 then guard (values &&& ~~~(map2MaskClear ||| map2MaskHardClear) = 0)
  else validateContents values

/-- A round of the loop reads the two bytes of the mask, so there are enough rounds. -/
def socketCommandMapValidateLevel (reader : PacketReader) (wireWidth wireHeight : ℤ) : Bool :=
  match untilEnd (fun reader => !decide (reader.pos < reader.data.length))
      (validateTile wireWidth wireHeight) (reader.data.length+1) reader with
  | none => false
  | some reader => reader.pos = reader.data.length

-- The parts of `map_protocol_validate`.

/-- The sizes of a new map. -/
def validateNew : Validation (UInt8 × UInt8) := do
  let width ← mapPacketReadUint8
  let height ← mapPacketReadUint8
  guard (width ≠ 0 ∧ height ≠ 0)
  pure (width, height)

/-- The place of a connected map, which is not a new one. -/
def validateConnected : Validation (UInt8 × UInt8) := do
  let tile ← mapPacketReadUint8
  let _ ← mapPacketReadInt8
  let _ ← mapPacketReadInt8
  let zoff ← mapPacketReadInt8
  guard (¬(tile < mapUpdateTileMin ∨ tile > mapUpdateTileMax ∨
    (tile = mapUpdateTileUp ∧ zoff ≠ 1) ∨ (tile = mapUpdateTileDown ∧ zoff ≠ -1) ∨
    (tile < mapUpdateTileUp ∧ zoff ≠ 0)))
  pure (0, 0)

/-- The texts of another map, and then its sizes if it is a new one. -/
def validateChange (mapstat : UInt8) : Validation (UInt8 × UInt8) := do
  mapPacketSkipString
  mapPacketSkipString
  mapPacketSkipString
  let heightDiff ← mapPacketReadUint8
  guard (heightDiff ≤ 1)
  let regionHasMap ← mapPacketReadUint8
  guard (regionHasMap ≤ 1)
  mapPacketSkipString
  mapPacketSkipString
  mapPacketSkipString
  if mapstat = mapUpdateCmdNew then validateNew else validateConnected

def validateHeader (mapstat : UInt8) : Validation (UInt8 × UInt8) :=
  if mapstat ≠ mapUpdateCmdSame then validateChange mapstat else pure (0, 0)

def map2DepthIndex (depth : Int8) : Int8 := depth+map2MaxDepth

def levelBit (depth : Int8) : UInt16 := 1 <<< UInt16.ofNat (map2DepthIndex depth).toNatClampNeg

/-- The bytes of a level, if it fits into the message and its depth is new. -/
def takeLevel (levelMask : UInt16) (depth : Int8) (levelSize : UInt32) :
    Validation (List UInt8) := fun reader =>
  if levelSize.toNat > packetReaderRemaining reader then none
  else if levelMask &&& levelBit depth ≠ 0 then none
  else some (packetReaderReadView reader levelSize.toNat)

/-- One round of the loop over the levels; `levelMask` has the bits of the depths seen before. -/
def validateLevel (mapWidthLimit mapHeightLimit : ℤ) (levelMask : UInt16) : Validation UInt16 := do
  let depth ← mapPacketReadInt8
  let levelSize ← mapPacketReadUint32
  guard (-map2MaxDepth ≤ depth ∧ depth ≤ map2MaxDepth)
  let level ← takeLevel levelMask depth levelSize
  guard (socketCommandMapValidateLevel (packetReaderInit level) mapWidthLimit mapHeightLimit = true)
  pure (levelMask ||| levelBit depth)

/-- The whole message, as far as the levels go. -/
def validateMessage (mapWidthLimit mapHeightLimit : ℤ) : Validation UInt16 := do
  let mapstat ← mapPacketReadUint8
  guard (mapstat ≤ mapUpdateCmdConnected)
  let newMap ← validateHeader mapstat
  let xpos ← mapPacketReadUint8
  let ypos ← mapPacketReadUint8
  let playerSubLayer ← mapPacketReadUint8
  guard (playerSubLayer < map2ProtocolSubLayers)
  guard (newMap.1 = 0 ∨ (xpos < newMap.1 ∧ ypos < newMap.2))
  let levelCount ← mapPacketReadUint8
  guard (levelCount ≠ 0 ∧ levelCount ≤ map2Levels)
  loop (validateLevel mapWidthLimit mapHeightLimit) levelCount.toNat 0

/-- `none` is the null pointer. -/
def mapProtocolValidate (data : Option (List UInt8)) (pos : ℕ)
    (mapWidthLimit mapHeightLimit : ℤ) : Bool :=
  match data with
  | none => false
  | some data =>
    if pos > data.length ∨ mapWidthLimit ≤ 0 ∨ mapWidthLimit > 32 ∨ mapHeightLimit ≤ 0 ∨
      mapHeightLimit > 32 then false
    else
      match validateMessage mapWidthLimit mapHeightLimit (packetReaderInitAt data pos) with
      | none => false
      | some (levelMask, reader) => (packetReaderFinish reader).1 && levelMask &&& levelBit 0 != 0

end LibAtrinik.MapProtocol

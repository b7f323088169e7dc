import LibAtrinik.MapLevels

namespace LibAtrinik.MapProtocol

open Packet PrefixGrammar Computability

/-- The place of the player. -/
def player (inside : UInt8 → UInt8 → Prop) : Language UInt8 :=
  ⨆ xpos, {[xpos]}*⨆ ypos, {[ypos]}*⨆ playerSubLayer, {[playerSubLayer]}*
    ⨆ _ : playerSubLayer < map2ProtocolSubLayers, ⨆ _ : inside xpos ypos, 1

/-- The texts that come with a change of the map. -/
def names : Language UInt8 :=
  text*(text*(text*(byteWith (· ≤ 1)*(byteWith (· ≤ 1)*(text*(text*text))))))

/-- The change of height from a tile to the map that is connected to it. -/
def zOffset (tile : UInt8) : Int8 :=
  if tile = mapUpdateTileUp then 1 else if tile = mapUpdateTileDown then -1 else 0

def sameMap : Language UInt8 := {[mapUpdateCmdSame]}*player fun _ _ => True

def newMap : Language UInt8 :=
  {[mapUpdateCmdNew]}*(names*⨆ width, {[width]}*⨆ height, {[height]}*⨆ _ : width ≠ 0 ∧ height ≠ 0,
    player fun xpos ypos => xpos < width ∧ ypos < height)

def connectedMap : Language UInt8 :=
  {[mapUpdateCmdConnected]}*(names*⨆ tile, {[tile]}*
    ⨆ _ : mapUpdateTileMin ≤ tile ∧ tile ≤ mapUpdateTileMax,
      anyBytes 2*({[(zOffset tile).toUInt8]}*player fun _ _ => True))

/-- The payload of `CLIENT_CMD_MAP`. -/
def mapMessage (wireWidth wireHeight : ℤ) : Language UInt8 :=
  (sameMap+newMap+connectedMap)*levels wireWidth wireHeight

/-- The sizes of a new map, with the value that the validator remembers. -/
def newSizes (sizes : UInt8 × UInt8) : Language UInt8 :=
  ⨆ width, {[width]}*⨆ height, {[height]}*⨆ _ : width ≠ 0 ∧ height ≠ 0,
    ⨆ _ : sizes = (width, height), 1

/-- The place of a connected map; no sizes are remembered. -/
def connectedPlace (sizes : UInt8 × UInt8) : Language UInt8 :=
  ⨆ tile, {[tile]}*⨆ _ : mapUpdateTileMin ≤ tile ∧ tile ≤ mapUpdateTileMax,
    anyBytes 2*({[(zOffset tile).toUInt8]}*⨆ _ : sizes = (0, 0), 1)

def header (mapstat : UInt8) (sizes : UInt8 × UInt8) : Language UInt8 :=
  if mapstat ≠ mapUpdateCmdSame then
    names*if mapstat = mapUpdateCmdNew then newSizes sizes else connectedPlace sizes
  else ⨆ _ : sizes = (0, 0), 1

/-- A header, and the player on the map that it is about. -/
def headed (mapstat : UInt8) : Language UInt8 :=
  ⨆ sizes : UInt8 × UInt8, header mapstat sizes*
    player fun xpos ypos => sizes.1 = 0 ∨ (xpos < sizes.1 ∧ ypos < sizes.2)

theorem zOffset_iff (tile : UInt8) (zoff : Int8) :
    ¬(tile < mapUpdateTileMin ∨ tile > mapUpdateTileMax ∨ (tile = mapUpdateTileUp ∧ zoff ≠ 1) ∨
      (tile = mapUpdateTileDown ∧ zoff ≠ -1) ∨ (tile < mapUpdateTileUp ∧ zoff ≠ 0)) ↔
    (mapUpdateTileMin ≤ tile ∧ tile ≤ mapUpdateTileMax) ∧ zoff = zOffset tile := by
  unfold zOffset
  simp only [not_or, not_and, not_not, UInt8.not_lt, gt_iff_lt, and_assoc]
  refine and_congr_right fun _ => and_congr_right fun hmax => ?_
  have hmax' : tile ≤ mapUpdateTileDown := hmax
  split_ifs with h1 h2
  · subst h1
    exact ⟨fun h => h.1 rfl, fun h => ⟨fun _ => h, fun he => absurd he (by decide),
      fun hlt => absurd hlt (by decide)⟩⟩
  · subst h2
    exact ⟨fun h => h.2.1 rfl, fun h => ⟨fun he => absurd he (by decide), fun _ => h,
      fun hlt => absurd hlt (by decide)⟩⟩
  · -- the tiles below the two that lead up and down
    have hlt : tile < mapUpdateTileUp := by
      have h1' := UInt8.toNat_inj.not.mpr h1
      have h2' := UInt8.toNat_inj.not.mpr h2
      rw [UInt8.lt_iff_toNat_lt]
      rw [UInt8.le_iff_toNat_le] at hmax'
      have hup : mapUpdateTileUp.toNat = 9 := rfl
      have hdown : mapUpdateTileDown.toNat = 10 := rfl
      omega
    exact ⟨fun h => h.2.2 hlt, fun h => ⟨fun he => absurd he h1, fun he => absurd he h2, fun _ => h⟩⟩

theorem recognizes_connectedPlace :
    Recognizes readerCursor validateConnected connectedPlace := by
  have hcheck (tile : UInt8) (zoff : Int8) := Recognizes.guarded
    (p := ¬(tile < mapUpdateTileMin ∨ tile > mapUpdateTileMax ∨
      (tile = mapUpdateTileUp ∧ zoff ≠ 1) ∨ (tile = mapUpdateTileDown ∧ zoff ≠ -1) ∨
      (tile < mapUpdateTileUp ∧ zoff ≠ 0)))
    fun _ => recognizes_pure (c := readerCursor) ((0, 0) : UInt8 × UInt8)
  refine (recognizes_readUint8.bind fun tile => recognizes_readInt8.bind fun _ =>
    recognizes_readInt8.bind fun _ => recognizes_readInt8.bind fun zoff =>
      hcheck tile zoff).congr fun sizes => Language.ext fun word => ?_
  simp only [connectedPlace, zOffset_iff, Language.mem_iSup, Language.mem_mul]
  constructor
  · rintro ⟨tile, _, rfl, _, ⟨xoff, _, rfl, _, ⟨yoff, _, rfl, _, ⟨zoff, _, rfl, _,
      ⟨⟨htile, rfl⟩, rfl, rfl⟩, rfl⟩, rfl⟩, rfl⟩, rfl⟩
    exact ⟨tile, _, rfl, _, ⟨htile, [xoff.toUInt8, yoff.toUInt8], rfl, _,
      ⟨_, rfl, [], ⟨rfl, rfl⟩, rfl⟩, rfl⟩, rfl⟩
  · rintro ⟨tile, _, rfl, _, ⟨htile, offsets, hlen, _, ⟨_, rfl, _, ⟨rfl, rfl⟩, rfl⟩, rfl⟩, rfl⟩
    obtain ⟨x, y, rfl⟩ := List.length_eq_two.mp (show offsets.length = 2 from hlen)
    exact ⟨tile, _, rfl, _, ⟨x.toInt8, _, rfl, _, ⟨y.toInt8, _, rfl, _, ⟨_, _, rfl, _,
      ⟨⟨htile, rfl⟩, rfl, rfl⟩, rfl⟩, rfl⟩, rfl⟩, rfl⟩

theorem recognizes_header (mapstat : UInt8) :
    Recognizes readerCursor (validateHeader mapstat) (header mapstat) := by
  have hnew : Recognizes readerCursor validateNew newSizes := by
    refine recognizes_readUint8.bind fun width => recognizes_readUint8.bind fun height => ?_
    exact Recognizes.guarded fun _ => recognizes_pure (width, height)
  refine recognizes_ite (fun _ => ?_) fun _ => recognizes_pure (0, 0)
  have hstring := recognizes_mapPacketSkipString
  refine (hstring.andThen (hstring.andThen (hstring.andThen
    (recognizes_readUint8.bind fun heightDiff => Recognizes.guarded (p := heightDiff ≤ 1) fun _ =>
    recognizes_readUint8.bind fun regionHasMap => Recognizes.guarded (p := regionHasMap ≤ 1) fun _ =>
      hstring.andThen (hstring.andThen (hstring.andThen
        (recognizes_ite (fun _ => hnew) fun _ => recognizes_connectedPlace))))))).congr
    fun sizes => ?_
  simp only [names, byteWith, Language.iSup_mul, mul_assoc, one_mul]

theorem player_congr {p q : UInt8 → UInt8 → Prop} (h : ∀ xpos ypos, p xpos ypos ↔ q xpos ypos) :
    player p = player q := by
  obtain rfl : p = q := funext fun xpos => funext fun ypos => propext (h xpos ypos)
  rfl

/-- Without the sizes of a new map the player can be anywhere. -/
theorem player_anywhere :
    (player fun xpos ypos => (0 : UInt8) = 0 ∨ (xpos < 0 ∧ ypos < 0)) = player fun _ _ => True :=
  player_congr fun _ _ => iff_of_true (Or.inl rfl) trivial

theorem headed_same : headed mapUpdateCmdSame = player fun _ _ => True := by
  have hheader (sizes : UInt8 × UInt8) :
      header mapUpdateCmdSame sizes = ⨆ _ : sizes = (0, 0), 1 := if_neg (not_not.mpr rfl)
  simp only [headed, hheader, Language.iSup_mul, one_mul, iSup_iSup_eq_left]
  exact player_congr fun _ _ => iff_of_true (Or.inl trivial) trivial

theorem headed_new :
    headed mapUpdateCmdNew = names*⨆ width, {[width]}*⨆ height, {[height]}*
      ⨆ _ : width ≠ 0 ∧ height ≠ 0, player fun xpos ypos => xpos < width ∧ ypos < height := by
  have hheader (sizes : UInt8 × UInt8) :
      header mapUpdateCmdNew sizes = names*newSizes sizes := if_pos (by decide)
  have hplayer (width height : UInt8) (h : width ≠ 0) :=
    player_congr (p := fun xpos ypos => width = 0 ∨ (xpos < width ∧ ypos < height))
      fun _ _ => or_iff_right h
  apply Language.ext
  intro word
  simp only [headed, hheader, newSizes, Language.mem_iSup, Language.mem_mul]
  constructor
  · rintro ⟨_, _, ⟨ns, hns, _, ⟨width, _, rfl, _, ⟨height, _, rfl, _, ⟨hne, rfl, rfl⟩, rfl⟩, rfl⟩,
      rfl⟩, ps, hps, rfl⟩
    rw [hplayer width height hne.1] at hps
    refine ⟨ns, hns, _, ⟨width, _, rfl, _, ⟨height, _, rfl, ps, ⟨hne, hps⟩, rfl⟩, rfl⟩, ?_⟩
    simp only [List.append_assoc, List.nil_append]
  · rintro ⟨ns, hns, _, ⟨width, _, rfl, _, ⟨height, _, rfl, ps, ⟨hne, hps⟩, rfl⟩, rfl⟩, rfl⟩
    rw [← hplayer width height hne.1] at hps
    refine ⟨(width, height), _, ⟨ns, hns, _, ⟨width, _, rfl, _, ⟨height, _, rfl, _,
      ⟨hne, rfl, rfl⟩, rfl⟩, rfl⟩, rfl⟩, ps, hps, ?_⟩
    simp only [List.append_assoc, List.nil_append]

theorem headed_connected :
    headed mapUpdateCmdConnected = names*⨆ tile, {[tile]}*
      ⨆ _ : mapUpdateTileMin ≤ tile ∧ tile ≤ mapUpdateTileMax,
        anyBytes 2*({[(zOffset tile).toUInt8]}*player fun _ _ => True) := by
  have hheader (sizes : UInt8 × UInt8) :
      header mapUpdateCmdConnected sizes = names*connectedPlace sizes := if_pos (by decide)
  apply Language.ext
  intro word
  simp only [headed, hheader, connectedPlace, Language.mem_iSup, Language.mem_mul]
  constructor
  · rintro ⟨_, _, ⟨ns, hns, _, ⟨tile, _, rfl, _, ⟨htile, os, hos, _,
      ⟨_, rfl, _, ⟨rfl, rfl⟩, rfl⟩, rfl⟩, rfl⟩, rfl⟩, ps, hps, rfl⟩
    rw [player_anywhere] at hps
    refine ⟨ns, hns, _, ⟨tile, _, rfl, _, ⟨htile, os, hos, _, ⟨_, rfl, ps, hps, rfl⟩, rfl⟩, rfl⟩, ?_⟩
    simp only [List.append_assoc, List.nil_append]
  · rintro ⟨ns, hns, _, ⟨tile, _, rfl, _, ⟨htile, os, hos, _, ⟨_, rfl, ps, hps, rfl⟩, rfl⟩, rfl⟩, rfl⟩
    rw [← player_anywhere] at hps
    refine ⟨(0, 0), _, ⟨ns, hns, _, ⟨tile, _, rfl, _, ⟨htile, os, hos, _,
      ⟨_, rfl, [], ⟨rfl, rfl⟩, rfl⟩, rfl⟩, rfl⟩, rfl⟩, ps, hps, ?_⟩
    simp only [List.append_assoc, List.nil_append]

/-- Everything before the levels. -/
theorem opening_eq :
    (⨆ mapstat, {[mapstat]}*⨆ _ : mapstat ≤ mapUpdateCmdConnected, headed mapstat) =
      sameMap+newMap+connectedMap := by
  apply Language.ext
  intro word
  simp only [Language.mem_iSup, Language.mem_mul]
  constructor
  · rintro ⟨mapstat, _, rfl, xs, ⟨hle, hxs⟩, rfl⟩
    have hcases : mapstat = mapUpdateCmdSame ∨ mapstat = mapUpdateCmdNew ∨
        mapstat = mapUpdateCmdConnected := by
      have hle' : mapstat.toNat ≤ 2 := UInt8.le_iff_toNat_le.mp hle
      simp only [← UInt8.toNat_inj, mapUpdateCmdSame, mapUpdateCmdNew, mapUpdateCmdConnected]
      show mapstat.toNat = 0 ∨ mapstat.toNat = 1 ∨ mapstat.toNat = 2
      omega
    rcases hcases with rfl | rfl | rfl
    · rw [headed_same] at hxs
      exact Or.inl (Or.inl (Language.append_mem_mul rfl hxs))
    · rw [headed_new] at hxs
      exact Or.inl (Or.inr (Language.append_mem_mul rfl hxs))
    · rw [headed_connected] at hxs
      exact Or.inr (Language.append_mem_mul rfl hxs)
  · rintro ((h | h) | h)
    · obtain ⟨_, rfl, xs, hxs, rfl⟩ := Language.mem_mul.mp h
      rw [← headed_same] at hxs
      exact ⟨mapUpdateCmdSame, _, rfl, xs, ⟨by decide, hxs⟩, rfl⟩
    · obtain ⟨_, rfl, xs, hxs, rfl⟩ := Language.mem_mul.mp h
      rw [← headed_new] at hxs
      exact ⟨mapUpdateCmdNew, _, rfl, xs, ⟨by decide, hxs⟩, rfl⟩
    · obtain ⟨_, rfl, xs, hxs, rfl⟩ := Language.mem_mul.mp h
      rw [← headed_connected] at hxs
      exact ⟨mapUpdateCmdConnected, _, rfl, xs, ⟨by decide, hxs⟩, rfl⟩

theorem recognizes_message (wireWidth wireHeight : ℤ) :
    Recognizes readerCursor (validateMessage wireWidth wireHeight)
      (fun levelMask =>
        (sameMap+newMap+connectedMap)*maskedLevels wireWidth wireHeight levelMask) := by
  have hlevels (n : ℕ) := recognizes_loop (validateLevel wireWidth wireHeight) IsDepth
    (fun levelMask d => levelMask &&& levelBit d ≠ 0)
    (fun levelMask d => levelMask ||| levelBit d) (levelRecord wireWidth wireHeight) levelMask_or
    (recognizes_levelRecord wireWidth wireHeight) n 0
  refine (recognizes_readUint8.bind fun mapstat =>
    Recognizes.guarded (p := mapstat ≤ mapUpdateCmdConnected) fun _ =>
    (recognizes_header mapstat).bind fun sizes => recognizes_readUint8.bind fun xpos =>
    recognizes_readUint8.bind fun ypos => recognizes_readUint8.bind fun playerSubLayer =>
    Recognizes.guarded (p := playerSubLayer < map2ProtocolSubLayers) fun _ =>
    Recognizes.guarded (p := sizes.1 = 0 ∨ (xpos < sizes.1 ∧ ypos < sizes.2)) fun _ =>
    recognizes_readUint8.bind fun levelCount =>
    Recognizes.guarded (p := levelCount ≠ 0 ∧ levelCount ≤ map2Levels) fun _ =>
      hlevels levelCount.toNat).congr fun levelMask => ?_
  rw [← opening_eq]
  simp only [headed, player, maskedLevels, Language.iSup_mul, mul_assoc, one_mul]

/-- A reader that is at the end of a message without an error. -/
theorem validateMessage_finish (wireWidth wireHeight : ℤ) (reader : PacketReader)
    (hg : readerCursor.good reader) :
    (∃ levelMask reader', validateMessage wireWidth wireHeight reader = some (levelMask, reader') ∧
      (packetReaderFinish reader').1 = true ∧ levelMask &&& levelBit 0 ≠ 0) ↔
    readerCursor.rest reader ∈ mapMessage wireWidth wireHeight := by
  have hfinish (n : ℕ) (hn : n ≤ (readerCursor.rest reader).length) :
      (packetReaderFinish (readerCursor.advance reader n)).1 = true ↔
        n = (readerCursor.rest reader).length := by
    have hlen : (readerCursor.rest reader).length = reader.data.length-reader.pos :=
      List.length_drop
    rw [packetReaderFinish_iff]
    show reader.error = .none ∧ reader.pos+n = reader.data.length ↔ _
    have hpos := hg.2.1
    constructor
    · rintro ⟨_, h⟩
      omega
    · intro h
      exact ⟨hg.1, by omega⟩
  constructor
  · rintro ⟨levelMask, reader', hrun, hend, hbit⟩
    obtain ⟨word, hword, hpre, rfl⟩ :=
      (recognizes_message wireWidth wireHeight reader hg levelMask reader').mp hrun
    rw [← hpre.eq_of_length ((hfinish word.length hpre.length_le).mp hend)]
    obtain ⟨xs, hxs, ys, hys, rfl⟩ := Language.mem_mul.mp hword
    exact Language.append_mem_mul hxs
      ((mem_levels wireWidth wireHeight ys).mpr ⟨levelMask, hys, hbit⟩)
  · intro hmem
    obtain ⟨xs, hxs, ys, hys, hrest⟩ := Language.mem_mul.mp hmem
    obtain ⟨levelMask, hys, hbit⟩ := (mem_levels wireWidth wireHeight ys).mp hys
    refine ⟨levelMask, _, (recognizes_message wireWidth wireHeight reader hg levelMask _).mpr
      ⟨xs ++ ys, Language.append_mem_mul hxs hys, ⟨[], ?_⟩, rfl⟩, ?_, hbit⟩
    · rw [List.append_nil]
      exact hrest
    · rw [show xs ++ ys = readerCursor.rest reader from hrest]
      exact (hfinish _ le_rfl).mpr rfl

/-- A buffer is accepted from a position on if the position is inside, the limits are in their
range and a message of the grammar is all that is left. -/
theorem mapProtocolValidate_iff (bytes : List UInt8) (hlen : bytes.length ≤ sizeMax) (pos : ℕ)
    (mapWidthLimit mapHeightLimit : ℤ) :
    mapProtocolValidate (some bytes) pos mapWidthLimit mapHeightLimit = true ↔
      pos ≤ bytes.length ∧ (0 < mapWidthLimit ∧ mapWidthLimit ≤ 32) ∧
        (0 < mapHeightLimit ∧ mapHeightLimit ≤ 32) ∧
        bytes.drop pos ∈ mapMessage mapWidthLimit mapHeightLimit := by
  unfold mapProtocolValidate
  dsimp only
  split_ifs with hbad
  · -- the arguments are refused before anything is read
    refine iff_of_false (fun h => nomatch h) ?_
    rintro ⟨hpos, hwidth, hheight, _⟩
    omega
  have hpos : pos ≤ bytes.length := by omega
  have hwidth : 0 < mapWidthLimit ∧ mapWidthLimit ≤ 32 := by omega
  have hheight : 0 < mapHeightLimit ∧ mapHeightLimit ≤ 32 := by omega
  have hinit : packetReaderInitAt bytes pos = { data := bytes, pos := pos } := if_neg (by omega)
  have hg : readerCursor.good { data := bytes, pos := pos } := ⟨rfl, hpos, hlen⟩
  rw [and_iff_right hpos, and_iff_right hwidth, and_iff_right hheight, hinit]
  refine Iff.trans ?_ (validateMessage_finish mapWidthLimit mapHeightLimit _ hg)
  cases validateMessage mapWidthLimit mapHeightLimit { data := bytes, pos := pos } with
  | none =>
    refine iff_of_false (fun h => nomatch h) ?_
    rintro ⟨_, _, h, _⟩
    exact nomatch h
  | some r =>
    rw [Bool.and_eq_true, bne_iff_ne]
    constructor
    · intro h
      exact ⟨r.1, r.2, rfl, h.1, h.2⟩
    · rintro ⟨_, _, h, hend, hbit⟩
      obtain rfl := Option.some.inj h
      exact ⟨hend, hbit⟩

/-- A new map of eight by eight fields with one level, on which the tile (1, 2) gets an object
with a name on layer 3. -/
theorem mapProtocolValidate_iff_new :
    [1, 97, 0, 0, 0, 1, 0, 0, 0, 0, 8, 8, 3, 4, 0, 1, 0, 0, 0, 0, 12, 8, 128, 1, 3, 0, 7, 0, 2, 98,
      0, 0, 0] ∈ mapMessage 17 17 :=
  ((mapProtocolValidate_iff [1, 97, 0, 0, 0, 1, 0, 0, 0, 0, 8, 8, 3, 4, 0, 1, 0, 0, 0, 0, 12, 8,
    128, 1, 3, 0, 7, 0, 2, 98, 0, 0, 0] (by decide) 0 17 17).mp (by decide)).2.2.2

end LibAtrinik.MapProtocol

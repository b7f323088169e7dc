import LibAtrinik.MapReadingBytes
import LibAtrinik.PacketScopeSimilar

namespace LibAtrinik.MapProtocol

open Packet

section Code

/-- `map_protocol_validate` with the scopes of a thread. Its own reader is bound to the active
scope, and the readers of the levels are bound to none by `level_unbound`. -/
def validateIn (t : Thread) (address : Option ℕ) (data : List UInt8) (pos : ℕ)
    (mapWidthLimit mapHeightLimit : ℤ) : Thread × Bool :=
  if address = none ∨ refusedAtOnce data pos mapWidthLimit mapHeightLimit then (t, false)
  else
    let made := scopedInitAt (t.scope t.active) address data pos
    let bound := if made.2.isSome then t.active else none
    let result := validateScoped mapWidthLimit mapHeightLimit made
    (t.setScope bound result.2.2, result.1)

end Code

section Definitions

/-- The reader that the validator leaves behind. -/
def lastReader (data : List UInt8) (pos : ℕ) (mapWidthLimit mapHeightLimit : ℤ) : PacketReader :=
  (validateScoped mapWidthLimit mapHeightLimit (initReader data pos, none)).2.1

/-- What the validator does with the notes of the active scope. -/
def noteValidated (n : Notes) (address : Option ℕ) (data : List UInt8) (pos : ℕ)
    (mapWidthLimit mapHeightLimit : ℤ) : Notes :=
  (n.bind address data.length pos).observe (initReader data pos)
    (lastReader data pos mapWidthLimit mapHeightLimit)

/-- The validator with the scopes as notes. -/
def watchValidated (w : Watch) (address : Option ℕ) (data : List UInt8) (pos : ℕ)
    (mapWidthLimit mapHeightLimit : ℤ) : Watch :=
  w.note (w.bound address data.length) fun n =>
    noteValidated n address data pos mapWidthLimit mapHeightLimit

/-- A scope that reports the same after the validator as before: it has an error already, or it is
bound and the message stops before the end of its data, unless the scope has been read to that end
too. -/
def Undisturbed (s : Scope) (data : List UInt8) (pos : ℕ) (mapWidthLimit mapHeightLimit : ℤ) : Prop :=
  s.error ≠ .none ∨ (s.initialized = true ∧
    ∃ stop, messageStop data pos mapWidthLimit mapHeightLimit = some stop ∧
      (stop = data.length → s.pos = data.length))

end Definitions

section Effect

variable {t : Thread} {w : Watch} {address : Option ℕ} {data : List UInt8} {pos : ℕ}
  {mapWidthLimit mapHeightLimit : ℤ}

/-- The level of a message is not the data that the message is in. A level without bytes has the
address of the message, and otherwise the level is behind the first byte. -/
theorem level_unbound {s : Scope} {a len p : ℕ} (level : List UInt8) (hinit : s.initialized = true)
    (hdata : s.data = some a) (hlen : s.len = len) (hp : 0 < p) (hpos : 0 < len) :
    scopedInitAt (some s) (if level = [] then some a else some (a+p)) level 0 =
      (plainInitAt (if level = [] then some a else some (a+p)) level 0, none) := by
  apply scopedInitAt_free
  intro s' hs'
  rw [← Option.some.inj hs']
  refine ⟨hinit, ?_⟩
  by_cases hempty : level = []
  · right
    rw [hlen, hempty]
    exact Nat.ne_of_gt hpos
  · left
    rw [hdata, if_neg hempty]
    intro heq
    have heq := Option.some.inj heq
    omega

theorem plainInitAt_eq (haddress : address ≠ none) (hpos : pos ≤ data.length) :
    plainInitAt address data pos = initReader data pos := by
  have hvalid : ¬invalidAt address data pos := by
    rintro (⟨hnone, _⟩ | hlong)
    · exact haddress hnone
    · omega
  unfold plainInitAt scopedInitAt
  rw [if_neg hvalid]

theorem scopedInitAt_reader (scope : Option Scope) (haddress : address ≠ none)
    (hpos : pos ≤ data.length) :
    (scopedInitAt scope address data pos).1 = initReader data pos := by
  rw [← plainInitAt_eq haddress hpos]
  unfold plainInitAt scopedInitAt
  split_ifs <;> rfl

theorem not_refused (h : ¬(address = none ∨ refusedAtOnce data pos mapWidthLimit mapHeightLimit)) :
    address ≠ none ∧ pos ≤ data.length ∧ ¬refusedAtOnce data pos mapWidthLimit mapHeightLimit := by
  obtain ⟨haddress, hrefused⟩ := not_or.mp h
  exact ⟨haddress, Nat.le_of_not_lt fun hlong => hrefused (Or.inl hlong), hrefused⟩

/-- The validator gives the same answer in every thread. -/
theorem validateIn_answer (t : Thread) (address : Option ℕ) (data : List UInt8) (pos : ℕ)
    (mapWidthLimit mapHeightLimit : ℤ) :
    (validateIn t address data pos mapWidthLimit mapHeightLimit).2 =
      mapProtocolValidate (address.map fun _ => data) pos mapWidthLimit mapHeightLimit := by
  unfold validateIn
  by_cases hrefused : address = none ∨ refusedAtOnce data pos mapWidthLimit mapHeightLimit
  · rw [if_pos hrefused]
    cases haddress : address with
    | none => rfl
    | some a =>
      have hrefused : refusedAtOnce data pos mapWidthLimit mapHeightLimit :=
        hrefused.resolve_left (by rw [haddress]; exact Option.some_ne_none a)
      exact (if_pos hrefused).symm
  · obtain ⟨haddress, hpos, hnot⟩ := not_refused hrefused
    rw [if_neg hrefused]
    obtain ⟨a, ha⟩ := Option.ne_none_iff_exists'.mp haddress
    have hreader := scopedInitAt_reader (t.scope t.active) haddress hpos
    have hanswer := validateScoped_eq data pos mapWidthLimit mapHeightLimit hnot
      (scopedInitAt (t.scope t.active) address data pos).2
    rw [ha, Option.map_some, ← hanswer, ← ha, ← hreader]

/-- The scopes hold what is noted of the validator. -/
theorem validateIn_matches (h : Matches t w)
    (hnot : ¬(address = none ∨ refusedAtOnce data pos mapWidthLimit mapHeightLimit)) :
    Matches (validateIn t address data pos mapWidthLimit mapHeightLimit).1
      (watchValidated w address data pos mapWidthLimit mapHeightLimit) := by
  obtain ⟨haddress, hpos, _⟩ := not_refused hnot
  unfold validateIn watchValidated
  rw [if_neg hnot]
  cases hbound : w.bound address data.length with
  | none =>
    rw [scopedInitAt_free _ address data pos (h.unbound hbound)]
    exact h
  | some i =>
    obtain ⟨hi, hhead, hbinds⟩ := bound_spec hbound
    have hactive : t.active = some i := h.active.trans hhead
    obtain ⟨s', hmade, hprevious, hagrees⟩ :=
      scopedInitAt_bound (h.agrees i hi) address data pos hbinds
    rw [plainInitAt_eq haddress hpos] at hmade hagrees
    have hagrees : Agrees s' ((w.notes i).bind address data.length pos) := hagrees
    have hscope : t.scope t.active = some (t.scopes i) := congrArg (Option.map t.scopes) hactive
    rw [hscope, hmade, hactive]
    have hfollows := follows_validate mapWidthLimit mapHeightLimit
    obtain ⟨_, hreader⟩ := hfollows.erase (initReader data pos, some s')
    have hfollow := hfollows.scope (initReader data pos, some s') fun _ _ herror =>
      absurd rfl herror
    rw [hreader] at hfollow
    apply h.setScope
    · intro k hk _
      rw [← Option.some.inj hk]
      refine ⟨_, hfollow, hprevious, ?_⟩
      exact hagrees.follow (initReader data pos) _ (bind_buffer _ _ _ _).1 fun herror =>
        absurd rfl herror
    · intro n _
      unfold noteValidated
      rw [observe_buffer]
      exact (bind_buffer n address data.length pos).1
    · intro n hn
      apply observe_errors
      rw [(bind_buffer n address data.length pos).2]
      exact Or.inl hn

/-- The last reader is where the message stops. -/
theorem lastReader_stops (mapWidthLimit mapHeightLimit : ℤ) (hpos : pos ≤ data.length) :
    match messageStop data pos mapWidthLimit mapHeightLimit with
    | none => (lastReader data pos mapWidthLimit mapHeightLimit).error ≠ .none
    | some stop => (lastReader data pos mapWidthLimit mapHeightLimit).error = .none ∧
        (lastReader data pos mapWidthLimit mapHeightLimit).pos = stop :=
  validate_stops mapWidthLimit mapHeightLimit (r := (initReader data pos, none)) rfl hpos

theorem lastReader_inside (mapWidthLimit mapHeightLimit : ℤ) (hpos : pos ≤ data.length) :
    (lastReader data pos mapWidthLimit mapHeightLimit).pos ≤ data.length := by
  have hinside := validate_inside mapWidthLimit mapHeightLimit (r := (initReader data pos, none)) hpos
  have hdata := (follows_validate mapWidthLimit mapHeightLimit).data (initReader data pos, none)
  unfold PacketReader.Inside at hinside
  rw [hdata] at hinside
  exact hinside

end Effect

end LibAtrinik.MapProtocol

import Mathlib.Data.List.Count
import Mathlib.Data.List.Nodup
import Mathlib.Data.List.Perm.Basic
import LibAtrinik.SocketRendezvous

namespace LibAtrinik.Quic

open Rendezvous

inductive SocketConnectionPreference where
  | auto | lan | ipv6 | mapped | srflx | directory | num
deriving DecidableEq, Repr

def socketQuicPreferenceKind : SocketConnectionPreference → SocketCandidateKind
  | .lan => .lan
  | .ipv6 => .ipv6
  | .mapped => .mapped
  | .srflx => .srflx
  | .directory => .directory
  | .auto => .num
  | .num => .num

def priorities : List SocketCandidateKind := [.lan, .ipv6, .prflx, .mapped, .srflx, .directory]

/-- The kinds in the order in which they are preferred. -/
def orderedPriorities (preferredKind : SocketCandidateKind) : List SocketCandidateKind :=
  (if preferredKind = .lan ∨ preferredKind = .ipv6 then [preferredKind] else []) ++
    (priorities.take 2).filter (· ≠ preferredKind) ++
    (if preferredKind ∈ [.prflx, .mapped, .srflx, .directory] then [preferredKind] else []) ++
    (priorities.drop 2).filter (· ≠ preferredKind)

/-- The candidates of the rendezvous and, after them, the one of the directory. -/
def allCandidates (rendezvous : List SocketDirectCandidate) (host : List Char) (port : UInt16) :
    List SocketDirectCandidate :=
  rendezvous ++ [{ host := snprintf 65 host, port := port, kind := .directory }]

def orderedCandidates (preference : SocketConnectionPreference)
    (candidates : List SocketDirectCandidate) : List SocketDirectCandidate :=
  (orderedPriorities (socketQuicPreferenceKind preference)).flatMap fun kind =>
    candidates.filter fun candidate => candidate.kind = kind

/-- Each kind has its place in the order. -/
theorem orderedPriorities_perm (preferredKind : SocketCandidateKind) :
    (orderedPriorities preferredKind).Perm priorities := by
  cases preferredKind <;> decide

theorem flatMap_filter_count (candidates : List SocketDirectCandidate)
    (kinds : List SocketCandidateKind) (c : SocketDirectCandidate) :
    (kinds.flatMap fun kind => candidates.filter fun candidate => candidate.kind = kind).count c =
      kinds.count c.kind*candidates.count c := by
  induction kinds with
  | nil => simp
  | cons kind kinds ih =>
    rw [List.flatMap_cons, List.count_append, ih, List.count_cons]
    by_cases h : c.kind = kind
    · subst h
      rw [List.count_filter (by simp), if_pos (by simp), Nat.add_mul, Nat.one_mul, Nat.add_comm]
    · have hnone : c ∉ candidates.filter fun candidate => candidate.kind = kind := by
        intro hc
        exact h (by simpa using (List.mem_filter.mp hc).2)
      rw [List.count_eq_zero_of_not_mem hnone, if_neg (by simpa using fun hk => h hk.symm),
        Nat.zero_add, Nat.add_zero]

/-- No candidate is lost or repeated when the candidates are ordered. -/
theorem orderedCandidates_perm (preference : SocketConnectionPreference)
    (candidates : List SocketDirectCandidate) (hkinds : ∀ c ∈ candidates, c.kind ≠ .num) :
    (orderedCandidates preference candidates).Perm candidates := by
  rw [List.perm_iff_count]
  intro c
  rw [orderedCandidates, flatMap_filter_count,
    (orderedPriorities_perm _).count_eq c.kind]
  by_cases hc : c ∈ candidates
  · have hone : priorities.count c.kind = 1 := by
      have hnum := hkinds c hc
      revert hnum
      cases c.kind <;> decide
    rw [hone, Nat.one_mul]
  · rw [List.count_eq_zero_of_not_mem hc, Nat.mul_zero]

/-- Candidates of a kind that comes later in the order come later. -/
theorem orderedCandidates_pairwise (preference : SocketConnectionPreference)
    (candidates : List SocketDirectCandidate) :
    (orderedCandidates preference candidates).Pairwise fun a b =>
      (orderedPriorities (socketQuicPreferenceKind preference)).idxOf a.kind ≤
        (orderedPriorities (socketQuicPreferenceKind preference)).idxOf b.kind := by
  set kinds := orderedPriorities (socketQuicPreferenceKind preference) with hkinds
  have hsorted : kinds.Pairwise fun k l => kinds.idxOf k ≤ kinds.idxOf l := by
    rw [hkinds]
    cases preference <;> decide
  unfold orderedCandidates
  rw [← hkinds, List.pairwise_flatMap]
  constructor
  · intro kind _
    apply List.pairwise_of_forall_mem_list
    intro a ha b hb
    have hak : a.kind = kind := by simpa using (List.mem_filter.mp ha).2
    have hbk : b.kind = kind := by simpa using (List.mem_filter.mp hb).2
    rw [hak, hbk]
  · refine hsorted.imp ?_
    intro k l hkl a ha b hb
    have hak : a.kind = k := by simpa using (List.mem_filter.mp ha).2
    have hbl : b.kind = l := by simpa using (List.mem_filter.mp hb).2
    rwa [hak, hbl]

def socketQuicCandidateIsNat (kind : SocketCandidateKind) : Bool :=
  kind = .prflx || kind = .mapped || kind = .srflx

/-- A candidate of a task with its rank. -/
structure Entry where
  rank : ℕ
  candidate : SocketDirectCandidate
deriving DecidableEq, Repr

/-- Whether there is an address: for the directory candidate always, for the others as
`getaddrinfo` says. -/
def socketQuicCandidateAddress (resolves : ℕ → Bool) (e : Entry) : Bool :=
  e.candidate.kind = .directory || resolves e.rank

/-- The tasks by their entries, and the index of the task for the candidates behind a NAT. -/
structure Tasks where
  entries : List (List Entry)
  natTask : Option ℕ

/-- One round of the loop over the ranks. -/
def Tasks.assign (resolves : ℕ → Bool) (tasks : Tasks) (e : Entry) : Tasks :=
  if socketQuicCandidateAddress resolves e = false then tasks
  else if socketQuicCandidateIsNat e.candidate.kind then
    match tasks.natTask with
    | none => { entries := tasks.entries ++ [[e]], natTask := some tasks.entries.length }
    | some i => { tasks with entries := tasks.entries.modify i (· ++ [e]) }
  else { tasks with entries := tasks.entries ++ [[e]] }

def ranked (candidates : List SocketDirectCandidate) : List Entry :=
  candidates.zipIdx.map fun p => ⟨p.2, p.1⟩

def assignTasks (resolves : ℕ → Bool) (ordered : List SocketDirectCandidate) : Tasks :=
  (ranked ordered).foldl (Tasks.assign resolves) ⟨[], none⟩

/-- The task that gets the socket with which the rendezvous was made. -/
def initialSocketTask (tasks : Tasks) : ℕ :=
  match tasks.natTask with
  | some i => i
  | none => (tasks.entries.findIdx? fun entries =>
      (entries.head?.map (·.candidate.kind)) = some .directory).getD 0

theorem flatten_modify_perm (entries : List (List Entry)) (i : ℕ) (hi : i < entries.length)
    (e : Entry) : (entries.modify i (· ++ [e])).flatten.Perm (entries.flatten ++ [e]) := by
  induction entries generalizing i with
  | nil => cases hi
  | cons task entries ih =>
    cases i with
    | zero =>
      rw [List.modify_zero_cons, List.flatten_cons, List.flatten_cons, List.append_assoc,
        List.append_assoc]
      exact List.Perm.append_left task List.perm_append_comm
    | succ i =>
      rw [List.modify_succ_cons, List.flatten_cons, List.flatten_cons, List.append_assoc]
      exact (ih i (Nat.lt_of_succ_lt_succ hi)).append_left task

/-- The tasks hold the entries that have been dealt and have an address. -/
structure Dealt (resolves : ℕ → Bool) (dealt : List Entry) (tasks : Tasks) : Prop where
  perm : tasks.entries.flatten.Perm (dealt.filter (socketQuicCandidateAddress resolves))
  nat : ∀ i, tasks.natTask = some i → i < tasks.entries.length

theorem Dealt.assign {resolves : ℕ → Bool} {dealt : List Entry} {tasks : Tasks}
    (h : Dealt resolves dealt tasks) (e : Entry) :
    Dealt resolves (dealt ++ [e]) (tasks.assign resolves e) := by
  by_cases haddress : socketQuicCandidateAddress resolves e = false
  · rw [Tasks.assign, if_pos haddress]
    refine ⟨?_, h.nat⟩
    rw [List.filter_append, List.filter_cons_of_neg (by simp [haddress]), List.filter_nil,
      List.append_nil]
    exact h.perm
  · have hfilter : (dealt ++ [e]).filter (socketQuicCandidateAddress resolves) =
        dealt.filter (socketQuicCandidateAddress resolves) ++ [e] := by
      rw [List.filter_append, List.filter_cons_of_pos (by simpa using haddress), List.filter_nil]
    have hnew : (tasks.entries ++ [[e]]).flatten.Perm
        ((dealt ++ [e]).filter (socketQuicCandidateAddress resolves)) := by
      rw [hfilter, List.flatten_append]
      exact h.perm.append_right _
    rw [Tasks.assign, if_neg haddress]
    split_ifs
    · cases hnat : tasks.natTask with
      | none =>
        refine ⟨hnew, fun i hi => ?_⟩
        obtain rfl := Option.some.inj hi
        simp
      | some i =>
        refine ⟨?_, fun j hj => ?_⟩
        · rw [hfilter]
          exact (flatten_modify_perm _ i (h.nat i hnat) e).trans (h.perm.append_right _)
        · obtain rfl : i = j := Option.some.inj hj
          rw [List.length_modify]
          exact h.nat i hnat
    · refine ⟨hnew, fun i hi => ?_⟩
      rw [List.length_append]
      exact Nat.lt_add_right _ (h.nat i hi)

theorem dealt_foldl (resolves : ℕ → Bool) (entries dealt : List Entry) (tasks : Tasks)
    (h : Dealt resolves dealt tasks) :
    Dealt resolves (dealt ++ entries) (entries.foldl (Tasks.assign resolves) tasks) := by
  induction entries generalizing dealt tasks with
  | nil => rwa [List.append_nil]
  | cons e entries ih =>
    have hrest := ih (dealt ++ [e]) (tasks.assign resolves e) (h.assign e)
    rwa [List.append_assoc] at hrest

theorem assignTasks_dealt (resolves : ℕ → Bool) (ordered : List SocketDirectCandidate) :
    Dealt resolves (ranked ordered) (assignTasks resolves ordered) :=
  dealt_foldl resolves (ranked ordered) [] ⟨[], none⟩ ⟨List.Perm.refl _, fun _ h => by cases h⟩

/-- Ranks are positions in the ordered list. -/
theorem mem_ranked {ordered : List SocketDirectCandidate} {e : Entry} :
    e ∈ ranked ordered ↔ ordered[e.rank]? = some e.candidate := by
  unfold ranked
  rw [List.mem_map]
  constructor
  · rintro ⟨⟨c, i⟩, hp, rfl⟩
    exact List.mem_zipIdx_iff_getElem?.mp hp
  · exact fun h => ⟨(e.candidate, e.rank), List.mem_zipIdx_iff_getElem?.mpr h, rfl⟩

theorem ranked_nodup (ordered : List SocketDirectCandidate) :
    ((ranked ordered).map Entry.rank).Nodup := by
  have hranks : (ranked ordered).map Entry.rank = List.range' 0 ordered.length := by
    rw [ranked, List.map_map]
    exact List.zipIdx_map_snd 0 ordered
  rw [hranks]
  exact List.nodup_range'

/-- Two tasks have no rank in common. -/
theorem assignTasks_disjoint (resolves : ℕ → Bool) (ordered : List SocketDirectCandidate)
    (i j : ℕ) (hi : i < (assignTasks resolves ordered).entries.length)
    (hj : j < (assignTasks resolves ordered).entries.length) (e e' : Entry)
    (he : e ∈ (assignTasks resolves ordered).entries[i])
    (he' : e' ∈ (assignTasks resolves ordered).entries[j]) (hrank : e.rank = e'.rank) : i = j := by
  set entries := (assignTasks resolves ordered).entries with hentries
  have hnodup : (entries.flatten.map Entry.rank).Nodup := by
    have hperm := (assignTasks_dealt resolves ordered).perm.map Entry.rank
    rw [hperm.nodup_iff]
    exact (ranked_nodup ordered).sublist (List.filter_sublist.map _)
  rw [List.map_flatten, List.nodup_flatten] at hnodup
  have hdisjoint := List.pairwise_iff_getElem.mp hnodup.2
  have hmem (k : ℕ) (hk : k < entries.length) (f : Entry) (hf : f ∈ entries[k]) :
      ∃ hk' : k < (entries.map (List.map Entry.rank)).length,
        f.rank ∈ (entries.map (List.map Entry.rank))[k] := by
    refine ⟨by rwa [List.length_map], ?_⟩
    rw [List.getElem_map]
    exact List.mem_map_of_mem hf
  obtain ⟨hi', hri⟩ := hmem i hi e he
  obtain ⟨hj', hrj⟩ := hmem j hj e' he'
  rcases Nat.lt_trichotomy i j with hlt | heq | hgt
  · exact absurd (hrank ▸ hri) (fun h => hdisjoint i j hi' hj' hlt h hrj)
  · exact heq
  · exact absurd (hrank ▸ hri) (fun h => hdisjoint j i hj' hi' hgt hrj h)

/-- The candidate of the directory always has a task. -/
theorem assignTasks_ne_nil (resolves : ℕ → Bool) (ordered : List SocketDirectCandidate)
    (h : ∃ c ∈ ordered, c.kind = .directory) : (assignTasks resolves ordered).entries ≠ [] := by
  obtain ⟨c, hc, hkind⟩ := h
  obtain ⟨rank, hrank⟩ := List.mem_iff_getElem?.mp hc
  intro hnil
  have hperm := (assignTasks_dealt resolves ordered).perm
  rw [hnil] at hperm
  have hmem : (⟨rank, c⟩ : Entry) ∈
      (ranked ordered).filter (socketQuicCandidateAddress resolves) := by
    refine List.mem_filter.mpr ⟨mem_ranked.mpr hrank, ?_⟩
    simp [socketQuicCandidateAddress, hkind]
  rw [List.nil_perm.mp hperm] at hmem
  cases hmem

theorem initialSocketTask_lt {resolves : ℕ → Bool} {dealt : List Entry} {tasks : Tasks}
    (h : Dealt resolves dealt tasks) (hne : tasks.entries ≠ []) :
    initialSocketTask tasks < tasks.entries.length := by
  unfold initialSocketTask
  cases hnat : tasks.natTask with
  | some i => exact h.nat i hnat
  | none =>
    dsimp only
    cases hfind : tasks.entries.findIdx? fun entries =>
        (entries.head?.map (·.candidate.kind)) = some .directory with
    | none => exact List.length_pos_of_ne_nil hne
    | some i => exact (List.findIdx?_eq_some_iff_getElem.mp hfind).1

end LibAtrinik.Quic

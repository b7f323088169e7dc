import Mathlib.Data.List.Basic
import Mathlib.Data.List.TakeWhile
import Mathlib.Tactic.Common

namespace LibAtrinik.Curl

section Header

abbrev Bytes := List UInt8

/-- `HUGE_BUF`. -/
def hugeBuf : ℕ := 4096

/-- A C string ends at its first zero. -/
def cString (s : Bytes) : Bytes := s.takeWhile (· ≠ 0)

/-- The words that the calls of `string_get_word` find in turn, after one that has been read in
part. -/
def getWords (delim : UInt8) : Bytes → Bytes → List Bytes
  | word, [] => if word = [] then [] else [word]
  | word, c :: rest =>
    if c = delim then
      if word = [] then getWords delim [] rest else word :: getWords delim [] rest
    else getWords delim (word ++ [c]) rest

/-- `isspace`. -/
def isSpace (c : UInt8) : Bool := c = 32 || (9 ≤ c && c ≤ 13)

/-- `string_whitespace_trim`. -/
def whitespaceTrim (s : Bytes) : Bytes :=
  ((s.reverse.dropWhile isSpace).reverse).dropWhile isSpace

/-- `string_split` at a colon into two parts. -/
def splitColon (s : Bytes) : Option (Bytes × Bytes) :=
  match s.dropWhile (· ≠ 58) with
  | [] => none
  | _ :: value => some (s.takeWhile (· ≠ 58), value)

/-- The name `ETag`. -/
def etagName : Bytes := [69, 84, 97, 103]

def etagOfLine (line : Bytes) : Option Bytes :=
  match splitColon line with
  | none => none
  | some (name, value) => if name = etagName then some (whitespaceTrim value) else none

/-- The entity tag that `curl_write_cache` finds in a header. -/
def etagOf (header : Bytes) : Option Bytes :=
  (getWords 10 [] (cString header)).findSome? fun word => etagOfLine (word.take (hugeBuf-1))

end Header

section Code

/-- A response with code 200, as far as it was received. Its header is that of this one response,
without the headers of redirects that were followed on the way. -/
structure Response where
  header : Option Bytes
  body : Option Bytes
deriving DecidableEq, Repr

/-- The two files of a cache path. -/
structure Files where
  cache : Option Bytes
  etag : Option Bytes
deriving DecidableEq, Repr

/-- `path_write_atomic`. -/
def pathWriteAtomic (written : Bool) (data : Bytes) (file : Option Bytes) : Option Bytes × Bool :=
  if written then (some data, true) else (file, false)

/-- `curl_write_cache`, with whether its two writes succeed. -/
def writeCache (files : Files) (r : Response) (bodyWritten etagWritten : Bool) : Files :=
  match r.header, r.body with
  | some header, some body =>
    let etag := etagOf header
    let (cache, ok) := pathWriteAtomic bodyWritten body files.cache
    let files := { files with cache := cache }
    let etag := if ok then etag else none
    match etag with
    | some etag => { files with etag := (pathWriteAtomic etagWritten etag files.etag).1 }
    | none => files
  | _, _ => files

/-- `fgets` with room for the whole file, and what it leaves as a string. -/
def fgets (content : Bytes) : Bytes :=
  let line := content.takeWhile (· ≠ 10)
  cString (if line.length < content.length then line ++ [10] else line)

/-- `curl_load_etag`. -/
def loadEtag (files : Files) : Option Bytes := files.etag.map fgets

/-- `curl_load_cache`. -/
def loadCache (files : Files) (maxBodySize : ℕ) : Option Bytes :=
  match files.cache with
  | some body => if body.length > maxBodySize then none else some body
  | none => none

/-- How a request is completed. -/
inductive Outcome where
  | ok (r : Response) (bodyWritten etagWritten : Bool)
  | notModified (maxBodySize : ℕ)
  | error

/-- `curl_request_complete`, with the body that the request has after a response with code 304. -/
def complete (files : Files) : Outcome → Files × Option Bytes
  | .ok r bodyWritten etagWritten => (writeCache files r bodyWritten etagWritten, none)
  | .notModified maxBodySize => (files, loadCache files maxBodySize)
  | .error => (files, none)

end Code

section Coherence

/-- The files, and the response whose body is in the cache file. -/
structure History where
  files : Files
  source : Option Response

def History.complete (h : History) (outcome : Outcome) : History where
  files := (Curl.complete h.files outcome).1
  source :=
    match outcome with
    | .ok r true _ => if r.header.isSome ∧ r.body.isSome then some r else h.source
    | _ => h.source

def History.init : History := ⟨⟨none, none⟩, none⟩

def Response.etag (r : Response) : Option Bytes := r.header.bind etagOf

/-- The entity tag in its file is that of the response whose body is in the cache file. -/
def Coherent (h : History) : Prop :=
  ∀ etag, h.files.etag = some etag → ∃ r, h.source = some r ∧ r.etag = some etag

/-- A body that is served for an entity tag is that of a response with this entity tag. -/
def ServesSent (h : History) : Prop :=
  ∀ etag maxBodySize body, loadEtag h.files = some etag →
    (complete h.files (.notModified maxBodySize)).2 = some body →
    ∃ r, h.source = some r ∧ r.body = some body ∧ r.etag = some etag

/-- A body is only written with its entity tag, or over files without one. -/
def Paired (h : History) : Outcome → Prop
  | .ok r bodyWritten etagWritten =>
    r.header.isSome → r.body.isSome → bodyWritten = true →
      h.files.etag = none ∨ h.files.etag = r.etag ∨ (etagWritten = true ∧ r.etag ≠ none)
  | _ => True

def AllPaired : History → List Outcome → Prop
  | _, [] => True
  | h, outcome :: outcomes => Paired h outcome ∧ AllPaired (h.complete outcome) outcomes

end Coherence

section Words

theorem mem_getWords {delim : UInt8} {word : Bytes} (s start : Bytes)
    (hword : word ∈ getWords delim start s) (hstart : delim ∉ start) :
    delim ∉ word ∧ ∀ c ∈ word, c ∈ start ∨ c ∈ s := by
  induction s generalizing start with
  | nil =>
    unfold getWords at hword
    by_cases hempty : start = []
    · rw [if_pos hempty] at hword
      cases hword
    · rw [if_neg hempty] at hword
      rw [List.mem_singleton.mp hword]
      exact ⟨hstart, fun c hc => Or.inl hc⟩
  | cons c rest ih =>
    unfold getWords at hword
    have hrest : word ∈ getWords delim [] rest →
        delim ∉ word ∧ ∀ x ∈ word, x ∈ start ∨ x ∈ c :: rest := by
      intro h
      obtain ⟨hdelim, hmem⟩ := ih [] h List.not_mem_nil
      refine ⟨hdelim, ?_⟩
      intro x hx
      rcases hmem x hx with hnil | hin
      · cases hnil
      · exact Or.inr (List.mem_cons_of_mem c hin)
    by_cases hc : c = delim
    · rw [if_pos hc] at hword
      by_cases hempty : start = []
      · rw [if_pos hempty] at hword
        exact hrest hword
      · rw [if_neg hempty] at hword
        rcases List.mem_cons.mp hword with heq | hin
        · rw [heq]
          exact ⟨hstart, fun x hx => Or.inl hx⟩
        · exact hrest hin
    · rw [if_neg hc] at hword
      have hstart' : delim ∉ start ++ [c] := by
        intro hin
        rcases List.mem_append.mp hin with hold | hnew
        · exact hstart hold
        · exact hc (List.mem_singleton.mp hnew).symm
      obtain ⟨hdelim, hmem⟩ := ih (start ++ [c]) hword hstart'
      refine ⟨hdelim, ?_⟩
      intro x hx
      rcases hmem x hx with hin | hin
      · rcases List.mem_append.mp hin with hold | hnew
        · exact Or.inl hold
        · rw [List.mem_singleton.mp hnew]
          exact Or.inr List.mem_cons_self
      · exact Or.inr (List.mem_cons_of_mem c hin)

theorem mem_whitespaceTrim {s : Bytes} {c : UInt8} (h : c ∈ whitespaceTrim s) : c ∈ s := by
  have hfront := (List.dropWhile_sublist _).mem h
  rw [List.mem_reverse] at hfront
  have hback := (List.dropWhile_sublist _).mem hfront
  rwa [List.mem_reverse] at hback

theorem mem_etagOfLine {line etag : Bytes} (h : etagOfLine line = some etag) (c : UInt8)
    (hc : c ∈ etag) : c ∈ line := by
  unfold etagOfLine splitColon at h
  cases hdrop : line.dropWhile (· ≠ 58) with
  | nil =>
    rw [hdrop] at h
    cases h
  | cons x value =>
    rw [hdrop] at h
    dsimp only at h
    split at h
    · rw [← Option.some.inj h] at hc
      have hvalue : c ∈ line.dropWhile (· ≠ 58) := by
        rw [hdrop]
        exact List.mem_cons_of_mem x (mem_whitespaceTrim hc)
      exact (List.dropWhile_sublist _).mem hvalue
    · cases h

/-- An entity tag is a part of one line of a string. -/
theorem etagOf_clean {header etag : Bytes} (h : etagOf header = some etag) :
    (∀ c ∈ etag, c ≠ 10) ∧ ∀ c ∈ etag, c ≠ 0 := by
  obtain ⟨word, hword, hline⟩ := List.exists_of_findSome?_eq_some h
  obtain ⟨hdelim, hmem⟩ := mem_getWords (cString header) [] hword List.not_mem_nil
  have hin : ∀ c ∈ etag, c ∈ word := by
    intro c hc
    exact List.mem_of_mem_take (mem_etagOfLine hline c hc)
  constructor
  · intro c hc heq
    rw [heq] at hc
    exact hdelim (hin 10 hc)
  · intro c hc
    rcases hmem c (hin c hc) with hnil | hstring
    · cases hnil
    · have hpred := List.mem_takeWhile_imp (p := fun x : UInt8 => decide (x ≠ 0)) hstring
      exact of_decide_eq_true hpred

/-- What has been written of an entity tag is read back. -/
theorem fgets_etag {header etag : Bytes} (h : etagOf header = some etag) : fgets etag = etag := by
  obtain ⟨hline, hstring⟩ := etagOf_clean h
  have hwhole : etag.takeWhile (· ≠ 10) = etag :=
    List.takeWhile_eq_self_iff.mpr fun c hc => decide_eq_true (hline c hc)
  unfold fgets cString
  rw [hwhole]
  dsimp only
  rw [if_neg (Nat.lt_irrefl _)]
  exact List.takeWhile_eq_self_iff.mpr fun c hc => decide_eq_true (hstring c hc)

end Words

section Runs

variable {h : History}

/-- The cache file holds the body of its response. -/
def Kept (h : History) : Prop := h.files.cache = h.source.bind Response.body

/-- A coherent pair of files serves the body that came with the entity tag. -/
theorem servesSent_of_coherent (hkept : Kept h) (hcoherent : Coherent h) : ServesSent h := by
  intro sent maxBodySize body hload hserve
  obtain ⟨etag, hetag, hread⟩ := Option.map_eq_some_iff.mp hload
  obtain ⟨r, hsource, hr⟩ := hcoherent etag hetag
  obtain ⟨header, _, hheader⟩ := Option.bind_eq_some_iff.mp hr
  rw [fgets_etag hheader] at hread
  refine ⟨r, hsource, ?_, by rw [hr, hread]⟩
  have hcache : h.files.cache = r.body := by
    rw [hkept, hsource]
    rfl
  change loadCache h.files maxBodySize = some body at hserve
  unfold loadCache at hserve
  rw [hcache] at hserve
  cases hbody : r.body with
  | none =>
    rw [hbody] at hserve
    cases hserve
  | some content =>
    rw [hbody] at hserve
    dsimp only at hserve
    split at hserve
    · cases hserve
    · exact hserve

theorem writeCache_written {header body : Bytes} (files : Files) (etagWritten : Bool) :
    writeCache files ⟨some header, some body⟩ true etagWritten =
      ⟨some body, match etagOf header with
        | some etag => if etagWritten then some etag else files.etag
        | none => files.etag⟩ := by
  unfold writeCache pathWriteAtomic
  dsimp only
  cases etagOf header with
  | none => rfl
  | some etag => cases etagWritten <;> rfl

theorem writeCache_failed (files : Files) (r : Response) (etagWritten : Bool) :
    writeCache files r false etagWritten = files := by
  obtain ⟨header, body⟩ := r
  cases header with
  | none => rfl
  | some header => cases body <;> rfl

/-- A request leaves the files as they are, or writes the body of its response. -/
theorem complete_cases (h : History) (outcome : Outcome) :
    (h.complete outcome = h ∧ Paired h outcome) ∨
      ∃ header body etagWritten, outcome = .ok ⟨some header, some body⟩ true etagWritten := by
  cases outcome with
  | ok r bodyWritten etagWritten =>
    obtain ⟨header, body⟩ := r
    cases bodyWritten with
    | false =>
      refine Or.inl ⟨?_, fun _ _ hfalse => by cases hfalse⟩
      exact congrArg (fun files => History.mk files h.source) (writeCache_failed _ _ etagWritten)
    | true =>
      cases header with
      | none => exact Or.inl ⟨rfl, fun hfalse => by cases hfalse⟩
      | some header =>
        cases body with
        | none => exact Or.inl ⟨rfl, fun _ hfalse => by cases hfalse⟩
        | some body => exact Or.inr ⟨header, body, etagWritten, rfl⟩
  | notModified maxBodySize => exact Or.inl ⟨rfl, trivial⟩
  | error => exact Or.inl ⟨rfl, trivial⟩

theorem complete_kept (outcome : Outcome) (hkept : Kept h) : Kept (h.complete outcome) := by
  rcases complete_cases h outcome with ⟨hsame, _⟩ | ⟨header, body, etagWritten, houtcome⟩
  · rw [hsame]
    exact hkept
  · rw [houtcome]
    change (writeCache h.files _ true etagWritten).cache = some body
    rw [writeCache_written]

/-- A step keeps the files coherent exactly if it is paired. -/
theorem complete_coherent_iff (outcome : Outcome) (hcoherent : Coherent h) :
    Coherent (h.complete outcome) ↔ Paired h outcome := by
  rcases complete_cases h outcome with ⟨hsame, hpaired⟩ | ⟨header, body, etagWritten, houtcome⟩
  · rw [hsame]
    exact ⟨fun _ => hpaired, fun _ => hcoherent⟩
  rw [houtcome]
  have hetag : (h.complete (.ok ⟨some header, some body⟩ true etagWritten)).files.etag =
      match etagOf header with
      | some etag => if etagWritten then some etag else h.files.etag
      | none => h.files.etag := congrArg Files.etag (writeCache_written h.files etagWritten)
  have hsource : (h.complete (.ok ⟨some header, some body⟩ true etagWritten)).source =
      some ⟨some header, some body⟩ := rfl
  have hown : Response.etag ⟨some header, some body⟩ = etagOf header := rfl
  have hiff : Coherent (h.complete (.ok ⟨some header, some body⟩ true etagWritten)) ↔
      ∀ etag, (h.complete (.ok ⟨some header, some body⟩ true etagWritten)).files.etag = some etag →
        etagOf header = some etag := by
    constructor
    · intro hall etag hfile
      obtain ⟨r, hr, hretag⟩ := hall etag hfile
      rw [← hown, Option.some.inj (hsource.symm.trans hr)]
      exact hretag
    · intro hall etag hfile
      exact ⟨_, hsource, hall etag hfile⟩
  have hpair : Paired h (.ok ⟨some header, some body⟩ true etagWritten) ↔
      (true = true → true = true → true = true →
        h.files.etag = none ∨ h.files.etag = etagOf header ∨
          (etagWritten = true ∧ etagOf header ≠ none)) := Iff.rfl
  rw [hiff, hetag, hpair]
  cases hfound : etagOf header with
  | none =>
    constructor
    · intro hall _ _ _
      cases hold : h.files.etag with
      | none => exact Or.inl rfl
      | some old => cases hall old hold
    · intro hpaired etag hfile
      rcases hpaired rfl rfl rfl with hnone | hsame | hwritten
      · rw [hnone] at hfile
        cases hfile
      · rw [hsame] at hfile
        cases hfile
      · exact absurd rfl hwritten.2
  | some own =>
    cases etagWritten with
    | true => exact ⟨fun _ _ _ _ => Or.inr (Or.inr ⟨rfl, Option.some_ne_none own⟩), fun _ _ heq => heq⟩
    | false =>
      constructor
      · intro hall _ _ _
        cases hold : h.files.etag with
        | none => exact Or.inl rfl
        | some old => exact Or.inr (Or.inl (hall old hold).symm)
      · intro hpaired etag hfile
        rcases hpaired rfl rfl rfl with hnone | hsame | hwritten
        · exact absurd (hnone.symm.trans hfile) (Option.some_ne_none etag).symm
        · exact hsame.symm.trans hfile
        · cases hwritten.1

theorem coherent_iff_allPaired_from (outcomes : List Outcome) (h : History) (hkept : Kept h)
    (hcoherent : Coherent h) :
    (∀ done, done <+: outcomes → Coherent (done.foldl History.complete h) ∧
        ServesSent (done.foldl History.complete h)) ↔ AllPaired h outcomes := by
  induction outcomes generalizing h with
  | nil =>
    constructor
    · intro _
      trivial
    · intro _ done hprefix
      rw [List.prefix_nil.mp hprefix]
      exact ⟨hcoherent, servesSent_of_coherent hkept hcoherent⟩
  | cons outcome outcomes ih =>
    have hkept' := complete_kept outcome hkept
    constructor
    · intro hall
      have hone : [outcome] <+: outcome :: outcomes := ⟨outcomes, rfl⟩
      have hcoherent' := (hall [outcome] hone).1
      refine ⟨(complete_coherent_iff outcome hcoherent).mp hcoherent', ?_⟩
      apply (ih (h.complete outcome) hkept' hcoherent').mp
      intro done hprefix
      exact hall (outcome :: done) (List.prefix_cons_inj outcome |>.mpr hprefix)
    · intro hpaired done hprefix
      cases done with
      | nil => exact ⟨hcoherent, servesSent_of_coherent hkept hcoherent⟩
      | cons outcome' done =>
        obtain ⟨heq, hrest⟩ := List.cons_prefix_cons.mp hprefix
        rw [heq]
        have hcoherent' := (complete_coherent_iff outcome hcoherent).mpr hpaired.1
        exact (ih (h.complete outcome) hkept' hcoherent').mpr hpaired.2 done hrest

/-- In all states of a sequence of requests the files are coherent, and what is served for an entity
tag came with it, exactly if each body is paired with its entity tag. -/
theorem coherent_iff_allPaired (outcomes : List Outcome) :
    (∀ done, done <+: outcomes → Coherent (done.foldl History.complete .init) ∧
        ServesSent (done.foldl History.complete .init)) ↔ AllPaired .init outcomes :=
  coherent_iff_allPaired_from outcomes .init rfl fun _ hnone => by cases hnone

/-- The header of a response with the entity tag `"a"`. -/
def taggedHeader : Bytes := [69, 84, 97, 103, 58, 32, 34, 97, 34, 13, 10, 13, 10]

example : etagOf taggedHeader = some [34, 97, 34] := by decide

/-- A response without an entity tag replaces the body of one with it. -/
theorem not_coherent :
    ¬ ∀ outcomes : List Outcome, Coherent (outcomes.foldl History.complete .init) ∧
      ServesSent (outcomes.foldl History.complete .init) := by
  intro h
  have hfirst := h [.ok ⟨some taggedHeader, some [1]⟩ true true, .ok ⟨some [13, 10], some [2]⟩ true true]
  obtain ⟨r, hr, hetag⟩ := hfirst.1 [34, 97, 34] (by decide)
  have hsource : r = ⟨some [13, 10], some [2]⟩ := Option.some.inj hr.symm
  rw [hsource] at hetag
  revert hetag
  decide

end Runs

end LibAtrinik.Curl

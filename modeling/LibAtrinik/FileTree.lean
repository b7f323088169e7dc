import Mathlib.Data.List.Basic
import Mathlib.Order.Defs.PartialOrder

/-! A file system as a tree of directories, files and symbolic links. A place is the list of names
from the entry up to the root. Walking along a path needs a directory at every step, and follows no
more than a given number of links. -/
namespace FileTree

variable {Name : Type*}

/-- What a component of a path asks for. -/
inductive Step (Name : Type*) where
  | stay
  | up
  | down (name : Name)
deriving DecidableEq

/-- The target of a link starts at the root or where the link is. -/
inductive Kind (Name : Type*) where
  | directory
  | file
  | link (absolute : Bool) (target : List (Step Name))
deriving DecidableEq

/-- Everything but the root is in a directory. -/
structure Tree (Name : Type*) where
  entry : List Name → Option (Kind Name)
  root : entry [] = some .directory
  parent : ∀ name place, entry (name :: place) ≠ none → entry place = some .directory

section Walk

/-- A walk goes on with fewer steps, or with fewer links that may be followed. -/
theorem walk_induct {motive : ℕ → List Name → List (Step Name) → Prop}
    (nil : ∀ left place, motive left place [])
    (cons : ∀ left place step rest, (∀ place', motive left place' rest) →
      (∀ fewer < left, ∀ place' steps, motive fewer place' steps) →
      motive left place (step :: rest)) (left : ℕ) (place : List Name) (steps : List (Step Name)) :
    motive left place steps := by
  induction left using Nat.strongRecOn generalizing place steps with
  | ind left ihleft =>
    induction steps generalizing place with
    | nil => exact nil left place
    | cons step rest ih => exact cons left place step rest ih ihleft

variable [DecidableEq Name]

/-- A walk until the first link, with which `follow` goes on. -/
def Tree.walkWith (t : Tree Name) (follow : List Name → List (Step Name) → Option (List Name × ℕ))
    (left : ℕ) (place : List Name) : List (Step Name) → Option (List Name × ℕ)
  | [] => some (place, left)
  | step :: rest =>
    if t.entry place = some .directory then
      match step with
      | .stay => t.walkWith follow left place rest
      | .up => t.walkWith follow left place.tail rest
      | .down name =>
        match t.entry (name :: place) with
        | none => none
        | some (.link absolute target) => follow (if absolute then [] else place) (target ++ rest)
        | some .directory | some .file => t.walkWith follow left (name :: place) rest
    else none

/-- The place to which the steps lead, and how many more links may be followed from there. -/
def Tree.walk (t : Tree Name) : ℕ → List Name → List (Step Name) → Option (List Name × ℕ)
  | 0 => t.walkWith (fun _ _ => none) 0
  | left+1 => t.walkWith (t.walk left) (left+1)

theorem Tree.walk_nil (t : Tree Name) (left : ℕ) (place : List Name) :
    t.walk left place [] = some (place, left) := by
  cases left <;> rfl

theorem Tree.walk_cons (t : Tree Name) (left : ℕ) (place : List Name) (step : Step Name)
    (rest : List (Step Name)) :
    t.walk left place (step :: rest) =
      if t.entry place = some .directory then
        match step with
        | .stay => t.walk left place rest
        | .up => t.walk left place.tail rest
        | .down name =>
          match t.entry (name :: place) with
          | none => none
          | some (.link absolute target) =>
            match left with
            | 0 => none
            | left+1 => t.walk left (if absolute then [] else place) (target ++ rest)
          | some .directory | some .file => t.walk left (name :: place) rest
      else none := by
  cases left <;> rfl

/-- The steps lead on from where those before them lead. -/
theorem Tree.walk_append (t : Tree Name) (left : ℕ) (place : List Name)
    (front back : List (Step Name)) :
    t.walk left place (front ++ back) =
      (t.walk left place front).bind fun r => t.walk r.2 r.1 back := by
  induction left, place, front using walk_induct with
  | nil left place =>
    rw [t.walk_nil]
    rfl
  | cons left place step rest ih ihlink =>
    rw [List.cons_append, t.walk_cons, t.walk_cons]
    by_cases hdir : t.entry place = some .directory
    · rw [if_pos hdir, if_pos hdir]
      cases step with
      | stay => exact ih place
      | up => exact ih place.tail
      | down name =>
        dsimp only
        cases hentry : t.entry (name :: place) with
        | none => rfl
        | some kind =>
          cases kind with
          | directory => exact ih (name :: place)
          | file => exact ih (name :: place)
          | link absolute target =>
            cases left with
            | zero => rfl
            | succ left =>
              dsimp only
              rw [← List.append_assoc]
              exact ihlink left (Nat.lt_succ_self left) _ _
    · rw [if_neg hdir, if_neg hdir]
      rfl

/-- No walk ends at a link. -/
theorem Tree.walk_entry (t : Tree Name) {left left' : ℕ} {place out : List Name}
    {steps : List (Step Name)} (hw : t.walk left place steps = some (out, left'))
    (hplace : t.entry place = some .directory ∨ t.entry place = some .file) :
    t.entry out = some .directory ∨ t.entry out = some .file := by
  induction left, place, steps using walk_induct with
  | nil left place =>
    rw [t.walk_nil] at hw
    rw [← (Prod.mk.inj (Option.some.inj hw)).1]
    exact hplace
  | cons left place step rest ih ihlink =>
    rw [t.walk_cons] at hw
    by_cases hdir : t.entry place = some .directory
    · rw [if_pos hdir] at hw
      cases step with
      | stay => exact ih place hw (Or.inl hdir)
      | up =>
        refine ih place.tail hw (Or.inl ?_)
        cases place with
        | nil => exact t.root
        | cons name place => exact t.parent name place (by rw [hdir]; exact nofun)
      | down name =>
        dsimp only at hw
        cases hentry : t.entry (name :: place) with
        | none =>
          rw [hentry] at hw
          cases hw
        | some kind =>
          rw [hentry] at hw
          cases kind with
          | directory => exact ih (name :: place) hw (Or.inl hentry)
          | file => exact ih (name :: place) hw (Or.inr hentry)
          | link absolute target =>
            cases left with
            | zero => cases hw
            | succ left =>
              refine ihlink left (Nat.lt_succ_self left) _ _ hw (Or.inl ?_)
              cases absolute with
              | false => exact hdir
              | true => exact t.root
    · rw [if_neg hdir] at hw
      cases hw

end Walk

section Extends

/-- Nothing is lost or changed. -/
def Tree.Extends (t t' : Tree Name) : Prop :=
  ∀ place kind, t.entry place = some kind → t'.entry place = some kind

theorem Tree.Extends.refl (t : Tree Name) : t.Extends t := fun _ _ h => h

theorem Tree.Extends.trans {t t' t'' : Tree Name} (h : t.Extends t') (h' : t'.Extends t'') :
    t.Extends t'' := fun place kind hk => h' place kind (h place kind hk)

variable [DecidableEq Name]

/-- What can be reached stays where it is. -/
theorem Tree.Extends.walk {t t' : Tree Name} (h : t.Extends t') {left : ℕ} {place : List Name}
    {steps : List (Step Name)} {r : List Name × ℕ} (hw : t.walk left place steps = some r) :
    t'.walk left place steps = some r := by
  induction left, place, steps using walk_induct with
  | nil left place =>
    rw [t.walk_nil] at hw
    rw [t'.walk_nil]
    exact hw
  | cons left place step rest ih ihlink =>
    rw [t.walk_cons] at hw
    rw [t'.walk_cons]
    by_cases hdir : t.entry place = some .directory
    · rw [if_pos hdir] at hw
      rw [if_pos (h _ _ hdir)]
      cases step with
      | stay => exact ih place hw
      | up => exact ih place.tail hw
      | down name =>
        dsimp only at hw ⊢
        cases hentry : t.entry (name :: place) with
        | none =>
          rw [hentry] at hw
          cases hw
        | some kind =>
          rw [hentry] at hw
          rw [h _ _ hentry]
          cases kind with
          | directory => exact ih (name :: place) hw
          | file => exact ih (name :: place) hw
          | link absolute target =>
            cases left with
            | zero => cases hw
            | succ left => exact ihlink left (Nat.lt_succ_self left) _ _ hw
    · rw [if_neg hdir] at hw
      cases hw

/-- The tree has a directory where the steps lead. -/
def Tree.Directory (t : Tree Name) (limit : ℕ) (start : List Name) (steps : List (Step Name)) :
    Prop :=
  ∃ place left, t.walk limit start steps = some (place, left) ∧ t.entry place = some .directory

theorem Tree.Extends.directory {t t' : Tree Name} (h : t.Extends t') {limit : ℕ}
    {start : List Name} {steps : List (Step Name)} (hd : t.Directory limit start steps) :
    t'.Directory limit start steps := by
  obtain ⟨place, left, hw, hentry⟩ := hd
  exact ⟨place, left, h.walk hw, h place _ hentry⟩

end Extends

section Make

variable [DecidableEq Name]

/-- The tree with a new directory. -/
def Tree.insert (t : Tree Name) (name : Name) (place : List Name)
    (hplace : t.entry place = some .directory) : Tree Name where
  entry other := if other = name :: place then some .directory else t.entry other
  root := by
    rw [if_neg nofun]
    exact t.root
  parent := by
    intro name' place' h
    by_cases hnew' : place' = name :: place
    · rw [if_pos hnew']
    · rw [if_neg hnew']
      by_cases hsame : name' :: place' = name :: place
      · rw [(List.cons.inj hsame).2]
        exact hplace
      · rw [if_neg hsame] at h
        exact t.parent name' place' h

theorem Tree.extends_insert (t : Tree Name) {name : Name} {place : List Name}
    (hplace : t.entry place = some .directory) (hnew : t.entry (name :: place) = none) :
    t.Extends (t.insert name place hplace) := by
  intro other kind h
  show (if other = name :: place then some .directory else t.entry other) = some kind
  rw [if_neg]
  · exact h
  · rintro rfl
    rw [hnew] at h
    cases h

/-- One directory for the last step, where the steps before lead. An entry that exists already is no
error, whatever it is: that is left to be found out, and no link at the end is followed. `allowed`
are the places where new entries may be made. -/
def Tree.mkdir (t : Tree Name) (limit : ℕ) (allowed : List Name → Bool) (start : List Name)
    (steps : List (Step Name)) : Option (Tree Name) :=
  match steps.getLast? with
  | none => some t
  | some step =>
    match t.walk limit start steps.dropLast with
    | none => none
    | some (place, _) =>
      if hplace : t.entry place = some .directory then
        match step with
        | .stay => some t
        | .up => some t
        | .down name =>
          if t.entry (name :: place) = none then
            if allowed (name :: place) then some (t.insert name place hplace) else none
          else some t
      else none

/-- The last of `front ++ [step]` is made in the directory where `front` leads. -/
theorem Tree.mkdir_concat (t : Tree Name) (allowed : List Name → Bool) {limit left : ℕ}
    {start place : List Name} {front : List (Step Name)} (step : Step Name)
    (hw : t.walk limit start front = some (place, left))
    (hplace : t.entry place = some .directory) :
    t.mkdir limit allowed start (front ++ [step]) =
      match step with
      | .stay => some t
      | .up => some t
      | .down name =>
        if t.entry (name :: place) = none then
          if allowed (name :: place) then some (t.insert name place hplace) else none
        else some t := by
  unfold Tree.mkdir
  rw [List.getLast?_append, List.getLast?_singleton, List.dropLast_concat]
  dsimp only [Option.or]
  rw [hw]
  dsimp only
  rw [dif_pos hplace]

/-- Nothing has to be made for a directory. -/
theorem Tree.Directory.mkdir {t : Tree Name} {limit : ℕ} {start : List Name}
    {steps : List (Step Name)} (h : t.Directory limit start steps) (allowed : List Name → Bool) :
    t.mkdir limit allowed start steps = some t := by
  obtain ⟨place, left, hw, hentry⟩ := h
  rcases List.eq_nil_or_concat steps with rfl | ⟨front, step, rfl⟩
  · rfl
  rw [List.concat_eq_append] at hw ⊢
  rw [t.walk_append] at hw
  obtain ⟨⟨before, between⟩, hbefore, hlast⟩ := Option.bind_eq_some_iff.mp hw
  dsimp only at hlast
  rw [t.walk_cons] at hlast
  by_cases hdir : t.entry before = some .directory
  · rw [if_pos hdir] at hlast
    rw [t.mkdir_concat allowed step hbefore hdir]
    cases step with
    | stay => rfl
    | up => rfl
    | down name =>
      dsimp only at hlast ⊢
      by_cases hnone : t.entry (name :: before) = none
      · rw [hnone] at hlast
        cases hlast
      · rw [if_neg hnone]
  · rw [if_neg hdir] at hlast
    cases hlast

/-- A directory is made, and it is checked that there is one. -/
def Tree.make (t : Tree Name) (limit : ℕ) (allowed : List Name → Bool) (start : List Name)
    (steps : List (Step Name)) : Option (Tree Name) :=
  (t.mkdir limit allowed start steps).bind fun made =>
    match made.walk limit start steps with
    | none => none
    | some (place, _) => if made.entry place = some .directory then some made else none

/-- What the check comes to. -/
theorem Tree.make_eq_some {t made : Tree Name} {limit : ℕ} {allowed : List Name → Bool}
    {start : List Name} {steps : List (Step Name)}
    (hmkdir : t.mkdir limit allowed start steps = some made) :
    (made.Directory limit start steps → t.make limit allowed start steps = some made) ∧
      (¬ made.Directory limit start steps → t.make limit allowed start steps = none) := by
  unfold Tree.make
  rw [hmkdir, Option.bind_some]
  constructor
  · rintro ⟨place, left, hw, hentry⟩
    rw [hw]
    exact if_pos hentry
  · intro hno
    cases hw : made.walk limit start steps with
    | none => rfl
    | some r => exact if_neg fun hentry => hno ⟨r.1, r.2, hw, hentry⟩

theorem Tree.Directory.make {t : Tree Name} {limit : ℕ} {start : List Name}
    {steps : List (Step Name)} (h : t.Directory limit start steps) (allowed : List Name → Bool) :
    t.make limit allowed start steps = some t :=
  (Tree.make_eq_some (h.mkdir allowed)).1 h

/-- What is new is a directory where the steps lead. -/
structure Tree.Adds (t t' : Tree Name) (limit : ℕ) (start : List Name)
    (steps : List (Step Name)) : Prop where
  keeps : t.Extends t'
  directory : t'.Directory limit start steps
  new : ∀ place, t.entry place = none → t'.entry place ≠ none →
    t'.entry place = some .directory ∧ ∃ left, t'.walk limit start steps = some (place, left)

/-- There can be no directory where the steps lead: a file is there, or a link that cannot be
followed, or nothing, and nothing may be made. -/
inductive Tree.Blocked (t : Tree Name) (limit : ℕ) (allowed : List Name → Bool)
    (start : List Name) (steps : List (Step Name)) : Prop where
  | file (place : List Name) (left : ℕ) (hw : t.walk limit start steps = some (place, left))
      (hentry : t.entry place = some .file)
  | link (front : List (Step Name)) (name : Name) (place : List Name) (left : ℕ) (absolute : Bool)
      (target : List (Step Name)) (hsteps : steps = front ++ [.down name])
      (hw : t.walk limit start front = some (place, left))
      (hentry : t.entry (name :: place) = some (.link absolute target))
      (hno : t.walk limit start steps = none)
  | refused (front : List (Step Name)) (name : Name) (place : List Name) (left : ℕ)
      (hsteps : steps = front ++ [.down name])
      (hw : t.walk limit start front = some (place, left))
      (hentry : t.entry (name :: place) = none) (hno : allowed (name :: place) = false)

theorem Tree.Blocked.not_directory {t : Tree Name} {limit : ℕ} {allowed : List Name → Bool}
    {start : List Name} {steps : List (Step Name)} (h : t.Blocked limit allowed start steps) :
    ¬ t.Directory limit start steps := by
  rintro ⟨place', left', hw', hdir⟩
  cases h with
  | file place left hw hentry =>
    obtain ⟨rfl, _⟩ := Prod.mk.inj (Option.some.inj (hw.symm.trans hw'))
    rw [hentry] at hdir
    cases hdir
  | link front name place left absolute target hsteps hw hentry hno =>
    rw [hno] at hw'
    cases hw'
  | refused front name place left hsteps hw hentry hno =>
    rw [hsteps, t.walk_append, hw, Option.bind_some, t.walk_cons] at hw'
    dsimp only at hw'
    rw [hentry] at hw'
    split_ifs at hw'

/-- In a directory, making one succeeds, unless something is in the way. -/
theorem Tree.make_concat (t : Tree Name) (allowed : List Name → Bool) {limit : ℕ}
    {start : List Name} {front : List (Step Name)} (step : Step Name)
    (h : t.Directory limit start front) :
    (∃ t', t.make limit allowed start (front ++ [step]) = some t' ∧
      t.Adds t' limit start (front ++ [step])) ∨
    t.make limit allowed start (front ++ [step]) = none ∧
      t.Blocked limit allowed start (front ++ [step]) := by
  obtain ⟨place, left, hw, hplace⟩ := h
  have hmkdir := t.mkdir_concat allowed step hw hplace
  -- the step itself, in this tree or in a larger one
  have hwalk (made : Tree Name) (hmade : t.Extends made) :
      made.walk limit start (front ++ [step]) = made.walk left place [step] := by
    rw [made.walk_append, hmade.walk hw, Option.bind_some]
  -- a directory that exists already
  have hexists (hd : t.Directory limit start (front ++ [step])) :
      ∃ t', t.make limit allowed start (front ++ [step]) = some t' ∧
        t.Adds t' limit start (front ++ [step]) :=
    ⟨t, hd.make allowed, .refl t, hd, fun _ hno hsome => absurd hno hsome⟩
  cases step with
  | stay =>
    refine Or.inl (hexists ⟨place, left, (hwalk t (.refl t)).trans ?_, hplace⟩)
    rw [t.walk_cons, if_pos hplace]
    exact t.walk_nil left place
  | up =>
    refine Or.inl (hexists ⟨place.tail, left, (hwalk t (.refl t)).trans ?_, ?_⟩)
    · rw [t.walk_cons, if_pos hplace]
      exact t.walk_nil left place.tail
    · cases place with
      | nil => exact t.root
      | cons name place => exact t.parent name place (by rw [hplace]; exact nofun)
  | down name =>
    dsimp only at hmkdir
    cases hentry : t.entry (name :: place) with
    | some kind =>
      rw [if_neg (by rw [hentry]; exact nofun)] at hmkdir
      by_cases hd : t.Directory limit start (front ++ [.down name])
      · exact Or.inl (hexists hd)
      refine Or.inr ⟨(Tree.make_eq_some hmkdir).2 hd, ?_⟩
      cases hout : t.walk limit start (front ++ [.down name]) with
      | none =>
        -- only a link can be there and lead nowhere
        have hthere := hwalk t (.refl t)
        rw [hout, t.walk_cons, if_pos hplace] at hthere
        dsimp only at hthere
        rw [hentry] at hthere
        cases kind with
        | directory =>
          dsimp only at hthere
          rw [t.walk_nil] at hthere
          cases hthere
        | file =>
          dsimp only at hthere
          rw [t.walk_nil] at hthere
          cases hthere
        | link absolute target => exact .link front name place left absolute target rfl hw hentry hout
      | some r =>
        have hstart := t.walk_entry (hwalk t (.refl t) ▸ hout) (Or.inl hplace)
        rcases hstart with hdir | hfile
        · exact absurd ⟨r.1, r.2, hout, hdir⟩ hd
        · exact .file r.1 r.2 hout hfile
    | none =>
      rw [if_pos hentry] at hmkdir
      cases hallowed : allowed (name :: place) with
      | false =>
        refine Or.inr ⟨?_, .refused front name place left rfl hw hentry hallowed⟩
        rw [hallowed, if_neg Bool.false_ne_true] at hmkdir
        unfold Tree.make
        rw [hmkdir]
        rfl
      | true =>
        rw [hallowed, if_pos rfl] at hmkdir
        have hkeeps := t.extends_insert hplace hentry
        have hself : (t.insert name place hplace).entry (name :: place) = some .directory :=
          if_pos rfl
        have hthere : (t.insert name place hplace).walk limit start (front ++ [.down name]) =
            some (name :: place, left) := by
          rw [hwalk _ hkeeps, Tree.walk_cons, if_pos (hkeeps _ _ hplace)]
          dsimp only
          rw [hself]
          exact Tree.walk_nil _ left (name :: place)
        have hd : (t.insert name place hplace).Directory limit start (front ++ [.down name]) :=
          ⟨_, left, hthere, hself⟩
        refine Or.inl ⟨_, (Tree.make_eq_some hmkdir).1 hd, hkeeps, hd, fun other hno hsome => ?_⟩
        -- only the one entry has changed
        have hother : other = name :: place := by
          by_contra hne
          exact hsome ((if_neg hne).trans hno)
        rw [hother]
        exact ⟨hself, left, hthere⟩

end Make

end FileTree

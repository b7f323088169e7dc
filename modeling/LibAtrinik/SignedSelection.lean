import Mathlib.Data.List.Induction
import Mathlib.Data.Set.Insert

namespace SignedSelection

variable {α : Type*}

inductive Target (α : Type*) where
  | all
  | one (a : α)
  | unknown
deriving DecidableEq

/-- A word, with `true` for the sign that selects and `false` for the sign that deselects. -/
structure Word (α : Type*) where
  sign : Option Bool
  target : Target α
deriving DecidableEq

/-- The things that are selected, and whether everything has been selected at once and not been
deselected at once since then. -/
@[ext]
structure Selection (α : Type*) where
  chosen : Set α
  whole : Prop

def Selection.everything : Selection α := ⟨Set.univ, True⟩

def Selection.nothing : Selection α := ⟨∅, False⟩

open Classical in
/-- Without a sign everything is selected if nothing is and nothing is left of everything. -/
noncomputable def Selection.edit (s : Selection α) (w : Word α) : Selection α :=
  match w.target with
  | .all => if w.sign.getD (s.chosen = ∅ ∧ ¬ s.whole) then .everything else .nothing
  | .one a =>
    match w.sign with
    | some true => { s with chosen := insert a s.chosen }
    | some false => { s with chosen := s.chosen \ {a} }
    | none => { s with chosen := {b | b ∈ s.chosen ↔ b ≠ a} }
  | .unknown => s

noncomputable def Selection.edits (s : Selection α) (words : List (Word α)) : Selection α :=
  words.foldl Selection.edit s

theorem Selection.edits_concat (s : Selection α) (words : List (Word α)) (w : Word α) :
    s.edits (words ++ [w]) = (s.edits words).edit w := by
  rw [edits, List.foldl_append]
  rfl

/-- Everything but what is deselected. -/
theorem Selection.edits_all_but (things : List α) :
    Selection.nothing.edits (⟨none, .all⟩ :: things.map fun a => ⟨some false, .one a⟩) =
      ⟨{a | a ∉ things}, True⟩ := by
  induction things using List.reverseRecOn with
  | nil =>
    apply Selection.ext
    · simp [edits, edit, nothing, everything]
    · simp [edits, edit, nothing, everything]
  | append_singleton things a ih =>
    rw [List.map_append, List.map_singleton, ← List.cons_append, edits_concat, ih]
    apply Selection.ext
    · ext b
      simp [edit]
    · rfl

theorem Selection.edit_all (s : Selection α) (sign : Option Bool) {empty : Bool}
    (h : empty = true ↔ s.chosen = ∅ ∧ ¬ s.whole) :
    s.edit ⟨sign, .all⟩ = if sign.getD empty then .everything else .nothing := by
  cases sign with
  | none =>
    classical
    exact if_congr (decide_eq_true_iff.trans h.symm) rfl rfl
  | some sign => rfl

def Word.Concerns (w : Word α) (a : α) : Prop := w.target = .all ∨ w.target = .one a

/-- A word leaves what it does not concern. -/
theorem Selection.mem_edit_of_not_concerns {s : Selection α} {w : Word α} {a : α}
    (h : ¬ w.Concerns a) : a ∈ (s.edit w).chosen ↔ a ∈ s.chosen := by
  obtain ⟨sign, target⟩ := w
  cases target with
  | all => exact absurd (Or.inl rfl) h
  | unknown => rfl
  | one b =>
    have hne : a ≠ b := fun hab => h (Or.inr (congrArg _ hab.symm))
    match sign with
    | some true => simp [edit, hne]
    | some false => simp [edit, hne]
    | none => simp [edit, hne]

/-- A signed word decides about what it concerns. -/
theorem Selection.mem_edit_of_sign {s : Selection α} {w : Word α} {a : α} {sign : Bool}
    (hsign : w.sign = some sign) (h : w.Concerns a) : a ∈ (s.edit w).chosen ↔ sign = true := by
  rcases h with htarget | htarget
  · cases sign with
    | true => simp [edit, hsign, htarget, everything]
    | false => simp [edit, hsign, htarget, nothing]
  · cases sign with
    | true => simp [edit, hsign, htarget]
    | false => simp [edit, hsign, htarget]

instance [DecidableEq α] (w : Word α) (a : α) : Decidable (w.Concerns a) :=
  inferInstanceAs (Decidable (_ ∨ _))

/-- The sign of the last word that concerns a thing. -/
def lastSign [DecidableEq α] (words : List (Word α)) (a : α) : Option Bool :=
  (words.filter fun w => w.Concerns a).getLast?.bind Word.sign

/-- If all words have signs, the last one that concerns a thing decides. -/
theorem Selection.mem_edits_iff_last [DecidableEq α] (s : Selection α) (words : List (Word α))
    {a : α} (hsigned : ∀ w ∈ words, w.sign ≠ none) {before : Bool}
    (hbefore : before = true ↔ a ∈ s.chosen) :
    a ∈ (s.edits words).chosen ↔ (lastSign words a).getD before = true := by
  induction words using List.reverseRecOn with
  | nil => exact hbefore.symm
  | append_singleton words w ih =>
    rw [edits_concat, lastSign, List.filter_append]
    by_cases hw : w.Concerns a
    · obtain ⟨sign, hsign⟩ := Option.ne_none_iff_exists'.mp (hsigned w (by simp))
      rw [mem_edit_of_sign hsign hw, List.filter_cons_of_pos (by simpa using hw)]
      simp [hsign]
    · rw [mem_edit_of_not_concerns hw, List.filter_cons_of_neg (by simpa using hw)]
      have hrest := ih fun w' hw' => hsigned w' (List.mem_append_left _ hw')
      simpa [lastSign] using hrest

end SignedSelection

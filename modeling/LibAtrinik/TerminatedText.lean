import Mathlib.Data.List.Basic
import Mathlib.Data.Nat.Basic
import Mathlib.Logic.Function.Basic

namespace TerminatedText

abbrev Memory := ℕ → Char

/-- What ends a text. -/
def NUL : Char := '\x00'

/-- At this address a text begins. -/
def At (mem : Memory) : ℕ → List Char → Prop
  | p, [] => mem p = NUL
  | p, c::s => mem p = c ∧ c ≠ NUL ∧ At mem (p+1) s

variable {mem mem' : Memory} {p : ℕ} {s f r : List Char}

theorem At.congr (h : At mem p s) (hsame : ∀ a, p ≤ a → a ≤ p+s.length → mem' a = mem a) :
    At mem' p s := by
  induction s generalizing p with
  | nil => exact (hsame p (Nat.le_refl _) (Nat.le_refl _)).trans h
  | cons c s ih =>
    obtain ⟨hc, hnul, hrest⟩ := h
    refine ⟨(hsame p (Nat.le_refl _) (by omega)).trans hc, hnul, ih hrest fun a hlow hhigh => ?_⟩
    apply hsame a (by omega)
    rw [List.length_cons]
    omega

/-- A text within a text. -/
theorem At.suffix (h : At mem p (f ++ r)) : At mem (p+f.length) r := by
  induction f generalizing p with
  | nil => exact h
  | cons c f ih =>
    have hrest := ih h.2.2
    rwa [Nat.add_right_comm, Nat.add_assoc] at hrest

/-- A text is cut where a null character is written. -/
theorem At.cut (h : At mem p (f ++ r)) (hnul : mem' (p+f.length) = NUL)
    (hsame : ∀ a, p ≤ a → a < p+f.length → mem' a = mem a) : At mem' p f := by
  induction f generalizing p with
  | nil => exact hnul
  | cons c f ih =>
    obtain ⟨hc, hne, hrest⟩ := h
    rw [List.length_cons] at hnul hsame
    refine ⟨(hsame p (Nat.le_refl _) (by omega)).trans hc, hne, ih hrest ?_ fun a hlow hhigh => ?_⟩
    · rwa [Nat.add_right_comm, Nat.add_assoc]
    · exact hsame a (by omega) (by omega)

end TerminatedText

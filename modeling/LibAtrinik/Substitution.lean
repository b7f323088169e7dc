import Mathlib.Data.List.Infix

namespace Substitution

variable {α : Type*} [DecidableEq α]

/-- What stands between the occurrences of a key. Of an occurrence, `skip` characters are still to be
passed over. -/
def pieces (key : List α) : ℕ → List α → List (List α)
  | _, [] => [[]]
  | skip+1, _::text => pieces key skip text
  | 0, c::text =>
    if key <+: c::text then [] :: pieces key (key.length-1) text
    else (pieces key 0 text).modifyHead (List.cons c)

def substitute (key replacement text : List α) : List α :=
  replacement.intercalate (pieces key 0 text)

variable {key : List α}

theorem pieces_skip (key : List α) (skip : ℕ) (text : List α) :
    pieces key skip text = pieces key 0 (text.drop skip) := by
  induction skip generalizing text with
  | zero => rw [List.drop_zero]
  | succ skip ih =>
    cases text with
    | nil => simp only [List.drop_nil, pieces]
    | cons c text => rw [pieces, ih, List.drop_succ_cons]

theorem pieces_found (hkey : key ≠ []) (text : List α) :
    pieces key 0 (key ++ text) = [] :: pieces key 0 text := by
  cases key with
  | nil => exact absurd rfl hkey
  | cons c key =>
    rw [List.cons_append, pieces, if_pos ⟨text, rfl⟩, pieces_skip, List.length_cons,
      Nat.add_sub_cancel, List.drop_left]

theorem pieces_char {c : α} {text : List α} (h : ¬ key <+: c::text) :
    pieces key 0 (c::text) = (pieces key 0 text).modifyHead (List.cons c) := by
  rw [pieces, if_neg h]

/-- A text from its end: it is empty, or begins with the key, or with a character at which the key
does not begin. -/
theorem text_induction (hkey : key ≠ []) {P : List α → Prop} (nil : P [])
    (found : ∀ text, P text → P (key ++ text))
    (char : ∀ c text, ¬ key <+: c::text → P text → P (c::text)) (text : List α) : P text := by
  induction hn : text.length using Nat.strong_induction_on generalizing text with
  | _ n ih =>
    by_cases hbegins : key <+: text
    · obtain ⟨rest, rfl⟩ := hbegins
      have hpos := List.length_pos_of_ne_nil hkey
      rw [List.length_append] at hn
      exact found rest (ih rest.length (by omega) rest rfl)
    · cases text with
      | nil => exact nil
      | cons c text =>
        rw [List.length_cons] at hn
        exact char c text hbegins (ih text.length (by omega) text rfl)

theorem pieces_ne_nil (hkey : key ≠ []) (text : List α) : pieces key 0 text ≠ [] := by
  induction text using text_induction hkey with
  | nil => exact List.cons_ne_nil _ _
  | found text _ =>
    rw [pieces_found hkey]
    exact List.cons_ne_nil _ _
  | char c text h ih =>
    rw [pieces_char h]
    cases hp : pieces key 0 text with
    | nil => exact absurd hp ih
    | cons piece rest => exact List.cons_ne_nil _ _

theorem substitute_nil (key replacement : List α) : substitute key replacement [] = [] := by
  rw [substitute, pieces, List.intercalate_singleton]

theorem substitute_found (hkey : key ≠ []) (replacement text : List α) :
    substitute key replacement (key ++ text) = replacement ++ substitute key replacement text := by
  rw [substitute, pieces_found hkey, List.intercalate_cons_of_ne_nil (pieces_ne_nil hkey text),
    List.nil_append]
  rfl

theorem substitute_char (hkey : key ≠ []) (replacement : List α) {c : α} {text : List α}
    (h : ¬ key <+: c::text) :
    substitute key replacement (c::text) = c :: substitute key replacement text := by
  rw [substitute, substitute, pieces_char h]
  cases hp : pieces key 0 text with
  | nil => exact absurd hp (pieces_ne_nil hkey text)
  | cons piece rest => rw [List.modifyHead_cons, List.intercalate_cons_cons_left]

/-- Joined with the key, the pieces are the text. -/
theorem substitute_self (hkey : key ≠ []) (text : List α) : substitute key key text = text := by
  induction text using text_induction hkey with
  | nil => exact substitute_nil key key
  | found text ih => rw [substitute_found hkey, ih]
  | char c text h ih => rw [substitute_char hkey key h, ih]

/-- The key is in no piece, and does not begin in a piece before the place where it was found. -/
def Leftmost (key : List α) : List (List α) → Prop
  | [] => False
  | [piece] => ¬ key <:+: piece
  | piece::next::rest => ¬ key <:+: piece ++ key.dropLast ∧ Leftmost key (next::rest)

theorem leftmost_pieces (hkey : key ≠ []) (text : List α) : Leftmost key (pieces key 0 text) := by
  induction text using text_induction hkey with
  | nil => exact fun h => hkey (List.eq_nil_of_infix_nil h)
  | found text ih =>
    rw [pieces_found hkey]
    cases hp : pieces key 0 text with
    | nil => exact absurd hp (pieces_ne_nil hkey text)
    | cons piece rest =>
      rw [hp] at ih
      refine ⟨fun h => ?_, ih⟩
      have hlength := h.length_le
      have hpos := List.length_pos_of_ne_nil hkey
      rw [List.nil_append, List.length_dropLast] at hlength
      omega
  | char c text h ih =>
    rw [pieces_char h]
    have htext := substitute_self hkey text
    rw [substitute] at htext
    cases hp : pieces key 0 text with
    | nil => exact absurd hp (pieces_ne_nil hkey text)
    | cons piece rest =>
      rw [hp] at ih htext
      -- An occurrence that the character is part of would begin with it.
      cases rest with
      | nil =>
        rw [List.intercalate_singleton] at htext
        intro hinfix
        rcases List.infix_cons_iff.mp hinfix with hbegins | hinfix
        · exact h (htext ▸ hbegins)
        · exact ih hinfix
      | cons next rest =>
        rw [List.intercalate_cons_cons] at htext
        refine ⟨fun hinfix => ?_, ih.2⟩
        rw [List.cons_append] at hinfix
        rcases List.infix_cons_iff.mp hinfix with hbegins | hinfix
        · apply h
          apply hbegins.trans
          rw [List.prefix_cons_inj, ← htext, List.append_assoc]
          apply List.prefix_append_right_inj _ |>.mpr
          exact (List.dropLast_prefix key).trans (List.prefix_append _ _)
        · exact ih.1 hinfix

end Substitution

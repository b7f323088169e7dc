import LibAtrinik.IntrusiveList
import Mathlib

/-! The sort of a linked list of records, which merges blocks of doubled sizes between four tapes.
The links at the end of a tape are stale, and only the counts say where it ends. -/
namespace LibAtrinik.SortLinkedList

open IntrusiveList

/-- `struct tape`. -/
structure Tape (π : Type) where
  first : π
  last : π
  count : ℕ

/-- The link of the record at an address, which is `none` where no record is. -/
abbrev Links (π : Type) := π → Option π

section Code

variable {π : Type} [DecidableEq π]

/-- `record->next[index] = target`. -/
def setLink (next : Links π) (record target : π) : Option (Links π) :=
  match next record with
  | some _ => some (Function.update next record (some target))
  | none => none

/-- The loop that distributes the records alternately to `tape[0]` and `tape[1]`. -/
def distribute (endMarker : π) : ℕ → π → Fin 4 → (Fin 4 → Tape π) → Links π →
    Option ((Fin 4 → Tape π) × Links π)
  | fuel, p, base, tape, next =>
    if p = endMarker then some (tape, next)
    else
      match fuel with
      | 0 => none
      | fuel+1 => do
        let following ← next p
        let next ← setLink next p (tape base).first
        let tape := Function.update tape base
          { tape base with first := p, count := (tape base).count+1 }
        distribute endMarker fuel following (base ^^^ 1) tape next

/-- The tape that the next record is taken from. -/
def choose (compare : π → π → Option Int) (tape0 tape1 : Tape π) (n0 n1 : ℕ) :
    Option (Option Bool) :=
  if n0 = 0 ∨ tape0.count = 0 then
    if n1 = 0 ∨ tape1.count = 0 then some none else some (some true)
  else if n1 = 0 ∨ tape1.count = 0 then some (some false)
  else (compare tape0.first tape1.first).map fun order => some (decide (order > 0))

/-- The first record of the chosen tape becomes the last one of the output tape. -/
def moveRecord (chosen output : Fin 4) (tape : Fin 4 → Tape π) (next : Links π) :
    Option ((Fin 4 → Tape π) × Links π) := do
  let record := (tape chosen).first
  let following ← next record
  let tape := Function.update tape chosen
    { tape chosen with first := following, count := (tape chosen).count-1 }
  if (tape output).count = 0 then
    return (Function.update tape output
      { first := record, last := record, count := (tape output).count+1 }, next)
  else
    let next ← setLink next (tape output).last record
    return (Function.update tape output
      { tape output with last := record, count := (tape output).count+1 }, next)

/-- The innermost loop: up to `n0` records of the one tape and `n1` of the other one are merged. -/
def mergeLoop (compare : π → π → Option Int) (tape0 tape1 output : Fin 4) :
    ℕ → ℕ → ℕ → (Fin 4 → Tape π) → Links π → Option ((Fin 4 → Tape π) × Links π)
  | fuel, n0, n1, tape, next => do
    match ← choose compare (tape tape0) (tape tape1) n0 n1 with
    | none => return (tape, next)
    | some right =>
      match fuel with
      | 0 => none
      | fuel+1 =>
        let (tape, next) ← moveRecord (if right then tape1 else tape0) output tape next
        mergeLoop compare tape0 tape1 output fuel (if right then n0 else n0-1)
          (if right then n1-1 else n1) tape next

/-- The loop over the blocks of two tapes, which are merged alternately to the two other ones. -/
def mergeBlocks (compare : π → π → Option Int) (tape0 tape1 : Fin 4) (blockSize : ℕ) :
    ℕ → Fin 4 → (Fin 4 → Tape π) → Links π → Option ((Fin 4 → Tape π) × Links π)
  | fuel, dest, tape, next =>
    if (tape tape0).count = 0 then some (tape, next)
    else
      match fuel with
      | 0 => none
      | fuel+1 => do
        let (tape, next) ← mergeLoop compare tape0 tape1 dest (2*blockSize) blockSize blockSize tape
          next
        mergeBlocks compare tape0 tape1 blockSize fuel (dest ^^^ 1) tape next

/-- A tape is emptied. -/
def clearTape (tape : Fin 4 → Tape π) (i : Fin 4) : Fin 4 → Tape π :=
  Function.update tape i { tape i with count := 0 }

/-- The outermost loop: the blocks get twice as long until there is only one. -/
def mergePasses (compare : π → π → Option Int) :
    ℕ → Fin 4 → ℕ → (Fin 4 → Tape π) → Links π → Option (Fin 4 × (Fin 4 → Tape π) × Links π)
  | fuel, base, blockSize, tape, next =>
    if (tape (base+1)).count = 0 then some (base, tape, next)
    else
      match fuel with
      | 0 => none
      | fuel+1 => do
        let dest := base ^^^ 2
        let tape := clearTape (clearTape tape dest) (dest+1)
        let (tape, next) ← mergeBlocks compare base (base+1) blockSize (tape base).count dest tape next
        mergePasses compare fuel (base ^^^ 2) (2*blockSize) tape next

/-- `sort_linked_list`: the first record, the number of records and the links. What the tapes are
before they are written is `stack`. -/
def sortLinkedList (null : π) (stack : Fin 4 → Tape π) (compare : π → π → Option Int) (fuel : ℕ)
    (endMarker p : π) (next : Links π) : Option (π × ℕ × Links π) := do
  let tape := clearTape (clearTape stack 0) 1
  let tape := Function.update tape 0 { tape 0 with first := null }
  let (tape, next) ← distribute endMarker fuel p 0 tape next
  let (base, tape, next) ← mergePasses compare ((tape 0).count+(tape 1).count) 0 1 tape next
  let next ← if (tape base).count > 1 then setLink next (tape base).last endMarker else some next
  return ((tape base).first, (tape base).count, next)

end Code

/-- The tapes that a pass reads, which start at `base`, are the first or the last two ones. -/
def Base (base : Fin 4) : Prop := base = 0 ∨ base = 2

end LibAtrinik.SortLinkedList

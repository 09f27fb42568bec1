import Mathlib.Data.List.Basic

/-!
# Splices

A list in which some ranges of positions are replaced, each by a list of its own; what is
outside the ranges stays as it is.
-/

namespace Splices

variable {α : Type}

/-- A range of positions and what stands in its place. -/
abbrev Replaced (α : Type) := Nat × Nat × List α

/-- The list from a position on, with the ranges replaced. -/
def splice (text : List α) : Nat → List (Replaced α) → List α
  | pos, [] => text.drop pos
  | pos, (start, stop, new) :: ranges =>
    (text.drop pos).take (start - pos) ++ new ++ splice text stop ranges

/-- The ranges follow one another from a position on, and end inside the list. -/
def InOrder (text : List α) : Nat → List (Replaced α) → Prop
  | _, [] => True
  | pos, (start, stop, _) :: ranges =>
    pos ≤ start ∧ start ≤ stop ∧ stop ≤ text.length ∧ InOrder text stop ranges

variable {text : List α} {pos k : Nat} {ranges : List (Replaced α)}

@[simp] theorem splice_nil (text : List α) (pos : Nat) : splice text pos [] = text.drop pos := rfl

theorem splice_cons (text : List α) (pos start stop : Nat) (new : List α)
    (ranges : List (Replaced α)) : splice text pos ((start, stop, new) :: ranges) =
      (text.drop pos).take (start - pos) ++ new ++ splice text stop ranges := rfl

theorem InOrder.weaken (h : InOrder text (pos + k) ranges) : InOrder text pos ranges := by
  cases ranges with
  | nil => trivial
  | cons range ranges =>
    rcases range with ⟨start, stop, new⟩
    exact ⟨Nat.le_trans (Nat.le_add_right pos k) h.1, h.2⟩

/-- What stands before the first range is copied. -/
theorem splice_advance (h : InOrder text (pos + k) ranges) :
    splice text pos ranges = (text.drop pos).take k ++ splice text (pos + k) ranges := by
  cases ranges with
  | nil => rw [splice_nil, splice_nil, ← List.drop_drop, List.take_append_drop]
  | cons range ranges =>
    rcases range with ⟨start, stop, new⟩
    have hsplit : start - pos = k + (start - (pos + k)) := by
      have := h.1
      omega
    rw [splice_cons, splice_cons, hsplit, List.take_add, List.drop_drop, List.append_assoc,
      List.append_assoc, List.append_assoc]

end Splices

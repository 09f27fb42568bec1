import Mathlib.Data.List.Basic

/-!
# Code in context

A piece of a linear program is reasoned about at the place where it stands: `CodeAt code pc
piece` says that `piece` is what `code` has from `pc` on.  A place of a sequence is a place of
its parts.
-/

universe u

variable {ι : Type u}

def CodeAt (code : List ι) (pc : Nat) (piece : List ι) : Prop :=
  ∃ before after, code = before ++ piece ++ after ∧ before.length = pc

namespace CodeAt

variable {code piece first last : List ι} {pc : Nat} {i : ι}

theorem whole (code rest : List ι) : CodeAt (code ++ rest) 0 code :=
  ⟨[], rest, by simp, rfl⟩

/-- The instruction at `pc`. -/
theorem fetch (h : CodeAt code pc (i :: piece)) : code[pc]? = some i := by
  obtain ⟨before, after, rfl, rfl⟩ := h
  simp

theorem tail (h : CodeAt code pc (i :: piece)) : CodeAt code (pc + 1) piece := by
  obtain ⟨before, after, rfl, rfl⟩ := h
  exact ⟨before ++ [i], after, by simp, by simp⟩

theorem append_left (h : CodeAt code pc (first ++ last)) : CodeAt code pc first := by
  obtain ⟨before, after, rfl, rfl⟩ := h
  exact ⟨before, last ++ after, by simp, rfl⟩

theorem append_right (h : CodeAt code pc (first ++ last)) :
    CodeAt code (pc + first.length) last := by
  obtain ⟨before, after, rfl, rfl⟩ := h
  exact ⟨before ++ first, after, by simp, by simp⟩

end CodeAt

import Mathlib.Data.List.DropRight

/-!
# Lines

A list cut at a mark: the lines it consists of, the last of which need not end with the mark,
what its first lines take and what they leave, and the last items of a list in a bounded ring.
-/

namespace Lines

variable {α : Type} {current : List α}

/-! ## 1. Lines -/

/-- Every line with its mark. -/
def unlines (nl : α) (ls : List (List α)) : List α := ls.flatMap (· ++ [nl])

theorem unlines_cons (nl : α) (l : List α) (ls : List (List α)) :
    unlines nl (l :: ls) = l ++ nl :: unlines nl ls := by
  simp [unlines]

theorem unlines_eq_nil_iff {nl : α} {ls : List (List α)} : unlines nl ls = [] ↔ ls = [] := by
  cases ls with
  | nil => simp [unlines]
  | cons l ls => simp [unlines_cons]

variable [DecidableEq α] {nl : α}

/-- The lines without their marks; `current` is what was read of the first one. -/
def linesFrom (nl : α) (current : List α) : List α → List (List α)
  | [] => if current = [] then [] else [current]
  | a :: as => if a = nl then current :: linesFrom nl [] as else linesFrom nl (current ++ [a]) as

def lines (nl : α) (as : List α) : List (List α) := linesFrom nl [] as

/-- The first lines, each with its mark. -/
def takeLines (nl : α) : Nat → List α → List α
  | 0, _ => []
  | _, [] => []
  | k + 1, a :: as => a :: takeLines nl (if a = nl then k else k + 1) as

/-- What stands behind the first lines. -/
def dropLines (nl : α) : Nat → List α → List α
  | 0, as => as
  | _, [] => []
  | k + 1, a :: as => dropLines nl (if a = nl then k else k + 1) as

/-- The list with a mark at its end, when it is not empty. -/
def close (nl : α) (as : List α) : List α :=
  if as = [] ∨ as.getLast? = some nl then as else as ++ [nl]

theorem takeLines_append_dropLines (nl : α) (k : Nat) (as : List α) :
    takeLines nl k as ++ dropLines nl k as = as := by
  induction as generalizing k with
  | nil => cases k <;> rfl
  | cons a as ih =>
    cases k with
    | zero => rfl
    | succ k => rw [takeLines, dropLines, List.cons_append, ih]

@[simp] theorem takeLines_zero (nl : α) (as : List α) : takeLines nl 0 as = [] := by
  cases as <;> rfl

@[simp] theorem dropLines_zero (nl : α) (as : List α) : dropLines nl 0 as = as := by
  cases as <;> rfl

theorem dropLines_nil (nl : α) (k : Nat) : dropLines nl k [] = [] := by
  cases k <;> rfl

theorem dropLines_isSuffix (nl : α) (k : Nat) (as : List α) : dropLines nl k as <:+ as :=
  ⟨takeLines nl k as, takeLines_append_dropLines nl k as⟩

/-- A line that is not complete is passed with its mark. -/
theorem dropLines_line (h : nl ∉ current) (k : Nat) (as : List α) :
    dropLines nl (k + 1) (current ++ nl :: as) = dropLines nl k as := by
  induction current with
  | nil => simp [dropLines]
  | cons a current ih =>
    simp only [List.mem_cons, not_or] at h
    rw [List.cons_append, dropLines, if_neg (Ne.symm h.1), ih h.2]

theorem dropLines_unended (h : nl ∉ current) (k : Nat) :
    dropLines nl (k + 1) current = [] := by
  induction current with
  | nil => rfl
  | cons a current ih =>
    simp only [List.mem_cons, not_or] at h
    rw [dropLines, if_neg (Ne.symm h.1), ih h.2]

theorem close_nil (nl : α) : close nl [] = [] := by
  simp [close]

theorem close_unended (h : nl ∉ current) (hne : current ≠ []) :
    close nl current = current ++ [nl] := by
  have hlast : current.getLast? ≠ some nl := fun hlast => h (List.mem_of_getLast? hlast)
  rw [close, if_neg (by simp [hne, hlast])]

theorem close_line (current as : List α) :
    close nl (current ++ nl :: as) = current ++ nl :: close nl as := by
  by_cases has : as = []
  · subst has
    rw [close_nil, close, if_pos (.inr (by simp))]
  · have hlast : (current ++ nl :: as).getLast? = as.getLast? := by
      rw [List.getLast?_append_of_ne_nil _ (List.cons_ne_nil _ _),
        List.getLast?_cons_of_ne_nil has]
    have hne : current ++ nl :: as ≠ [] := by simp
    simp only [close, hlast, hne, has, false_or]
    split <;> simp

theorem close_eq_self_iff {as : List α} :
    close nl as = as ↔ as = [] ∨ as.getLast? = some nl := by
  unfold close
  split
  · next h => exact ⟨fun _ => h, fun _ => rfl⟩
  · next h =>
    refine ⟨fun heq => ?_, fun h' => absurd h' h⟩
    have := congrArg List.length heq
    simp at this

/-- **The lines behind the first ones**, each with a mark, are what the first ones leave, closed
    with a mark. -/
theorem unlines_drop_linesFrom (h : nl ∉ current) (k : Nat) (as : List α) :
    unlines nl ((linesFrom nl current as).drop k) = close nl (dropLines nl k (current ++ as)) := by
  induction as generalizing current k with
  | nil =>
    rw [List.append_nil, linesFrom]
    by_cases hne : current = []
    · rw [if_pos hne, List.drop_nil, hne, dropLines_nil, close_nil]
      rfl
    · rw [if_neg hne]
      cases k with
      | zero =>
        rw [dropLines, close_unended h hne]
        simp [unlines]
      | succ k =>
        rw [dropLines_unended h, close_nil, List.drop_succ_cons, List.drop_nil]
        rfl
  | cons a as ih =>
    rw [linesFrom]
    by_cases ha : a = nl
    · subst ha
      rw [if_pos rfl]
      cases k with
      | zero =>
        have hrest := ih List.not_mem_nil 0
        rw [List.drop_zero, List.nil_append, dropLines] at hrest
        rw [List.drop_zero, unlines_cons, dropLines, close_line, hrest]
      | succ k =>
        have hrest := ih List.not_mem_nil k
        rw [List.nil_append] at hrest
        rw [List.drop_succ_cons, dropLines_line h, hrest]
    · have hmem : nl ∉ current ++ [a] := by
        simp only [List.mem_append, List.mem_singleton, not_or]
        exact ⟨h, Ne.symm ha⟩
      rw [if_neg ha, ih hmem, List.append_assoc, List.singleton_append]

theorem unlines_drop_lines (nl : α) (k : Nat) (as : List α) :
    unlines nl ((lines nl as).drop k) = close nl (dropLines nl k as) :=
  unlines_drop_linesFrom List.not_mem_nil k as

theorem close_eq_nil_iff {as : List α} : close nl as = [] ↔ as = [] := by
  unfold close
  split <;> simp_all

theorem dropLines_eq_nil_iff {k : Nat} {as : List α} :
    dropLines nl k as = [] ↔ (lines nl as).length ≤ k := by
  rw [← @close_eq_nil_iff _ _ nl, ← unlines_drop_lines, unlines_eq_nil_iff,
    List.drop_eq_nil_iff]

/-- What is left after the first lines ends as the list does. -/
theorem getLast?_dropLines {k : Nat} {as : List α} (h : dropLines nl k as ≠ []) :
    (dropLines nl k as).getLast? = as.getLast? := by
  rcases dropLines_isSuffix nl k as with ⟨before, hsplit⟩
  have hlast := List.getLast?_append_of_ne_nil before h
  rw [hsplit] at hlast
  exact hlast.symm

/-- What the first lines leave is closed when they leave nothing or the list is closed. -/
theorem close_dropLines_eq_self_iff {k : Nat} {as : List α} :
    close nl (dropLines nl k as) = dropLines nl k as ↔
      (lines nl as).length ≤ k ∨ as.getLast? = some nl := by
  rw [close_eq_self_iff, dropLines_eq_nil_iff]
  by_cases hle : (lines nl as).length ≤ k
  · simp [hle]
  · rw [getLast?_dropLines (fun hnil => hle (dropLines_eq_nil_iff.mp hnil))]

theorem lines_nil (nl : α) : lines nl [] = [] := by
  simp [lines, linesFrom]

theorem lines_eq_nil_iff {as : List α} : lines nl as = [] ↔ as = [] := by
  rw [← List.length_eq_zero_iff, ← Nat.le_zero, ← @dropLines_eq_nil_iff _ _ nl]
  cases as <;> simp [dropLines]

end Lines

/-! ## 2. Rings -/

namespace Rings

variable {α : Type}

/-- An item at the end of a ring of so many items, the oldest one making room. -/
def pushBounded (ring : List α) (item : α) (limit : Nat) : List α :=
  if limit = 0 then ring
  else if ring.length = limit then ring.tail ++ [item]
  else ring ++ [item]

theorem pushBounded_rtake (as : List α) (a : α) (limit : Nat) :
    pushBounded (as.rtake limit) a limit = (as ++ [a]).rtake limit := by
  cases limit with
  | zero => simp [pushBounded]
  | succ k =>
    rw [List.rtake_concat_succ, pushBounded, if_neg (Nat.succ_ne_zero k), List.rtake, List.rtake]
    by_cases hlen : k + 1 ≤ as.length
    · have hfull : (as.drop (as.length - (k + 1))).length = k + 1 := by
        rw [List.length_drop]
        omega
      rw [if_pos hfull, List.tail_drop]
      congr 3
      omega
    · have hpart : (as.drop (as.length - (k + 1))).length ≠ k + 1 := by
        rw [List.length_drop]
        omega
      rw [if_neg hpart, Nat.sub_eq_zero_of_le (by omega), Nat.sub_eq_zero_of_le (by omega)]

/-- A ring that is given the items one after the other holds the last ones. -/
theorem foldl_pushBounded (limit : Nat) (as bs : List α) :
    bs.foldl (pushBounded · · limit) (as.rtake limit) = (as ++ bs).rtake limit := by
  induction bs generalizing as with
  | nil => simp
  | cons b bs ih =>
    rw [List.foldl_cons, pushBounded_rtake, ih, List.append_assoc, List.singleton_append]

end Rings

import Mathlib.Data.List.Basic

/-!
# Records of fixed width

A record is a list of cells; a field is a range of them.  Writing a field keeps the length of
the record and the fields beside it.  `blocks` counts the whole blocks that data is
stored in.
-/

namespace FixedFields

variable {α : Type} {cells record : List α}

/-! ## 1. Fields -/

/-- The cells from a place on are replaced. -/
def setField (off : Nat) (cells record : List α) : List α :=
  record.take off ++ cells ++ record.drop (off + cells.length)

/-- The cells of a field. -/
def field (off len : Nat) (record : List α) : List α := (record.drop off).take len

theorem length_setField {off : Nat} (h : off + cells.length ≤ record.length) :
    (setField off cells record).length = record.length := by
  simp only [setField, List.length_append, List.length_take, List.length_drop]
  omega

/-- The field that was written, and what follows it. -/
theorem drop_setField {off : Nat} (h : off ≤ record.length) :
    (setField off cells record).drop off = cells ++ record.drop (off + cells.length) := by
  have hlen : (record.take off).length = off := List.length_take_of_le h
  rw [setField, List.append_assoc]
  exact List.drop_left' hlen

theorem field_setField_same {off len : Nat} (h : off ≤ record.length)
    (hlen : cells.length = len) : field off len (setField off cells record) = cells := by
  rw [field, drop_setField h, ← hlen]
  exact List.take_left

/-- A field that is longer than what was written keeps the rest of its cells. -/
theorem field_setField_start {off len : Nat} (h : off ≤ record.length)
    (hlen : cells.length ≤ len) : field off len (setField off cells record) =
      cells ++ field (off + cells.length) (len - cells.length) record := by
  rw [field, drop_setField h, List.take_append, List.take_of_length_le hlen, field]

theorem field_setField_before {off off' len : Nat} (h : off' + len ≤ off)
    (hlen : off ≤ record.length) :
    field off' len (setField off cells record) = field off' len record := by
  have hin : len ≤ ((record.take off).drop off').length := by
    rw [List.length_drop, List.length_take]
    omega
  have hout : off' ≤ (record.take off).length := by
    rw [List.length_take]
    omega
  unfold field setField
  rw [List.append_assoc, List.drop_append_of_le_length hout, List.take_append_of_le_length hin,
    List.drop_take, List.take_take, Nat.min_eq_left (by omega)]

theorem field_setField_after {off off' len : Nat}
    (h : off + cells.length ≤ off') (hlen : off ≤ record.length) :
    field off' len (setField off cells record) = field off' len record := by
  have hsplit : off' = off + (cells.length + (off' - (off + cells.length))) := by omega
  unfold field
  congr 1
  rw [hsplit, ← List.drop_drop, drop_setField hlen, ← List.drop_drop, List.drop_left,
    List.drop_drop]
  congr 1
  omega

theorem field_replicate {off len n : Nat} (a : α) (h : off + len ≤ n) :
    field off len (List.replicate n a) = List.replicate len a := by
  rw [field, List.drop_replicate, List.take_replicate, Nat.min_eq_left (by omega)]

/-- Cells between others. -/
theorem field_append (before cells after : List α) {off len : Nat} (hoff : before.length = off)
    (hlen : cells.length = len) : field off len (before ++ (cells ++ after)) = cells := by
  rw [field, List.drop_left' hoff, List.take_left' hlen]

/-- Fields written one after the other, each with its place. -/
def setFields (writes : List (Nat × List α)) (record : List α) : List α :=
  writes.foldl (fun record w => setField w.1 w.2 record) record

theorem setFields_cons (w : Nat × List α) (ws : List (Nat × List α)) (record : List α) :
    setFields (w :: ws) record = setFields ws (setField w.1 w.2 record) := rfl

theorem length_setFields {writes : List (Nat × List α)} {record : List α}
    (h : ∀ w ∈ writes, w.1 + w.2.length ≤ record.length) :
    (setFields writes record).length = record.length := by
  induction writes generalizing record with
  | nil => rfl
  | cons w ws ih =>
    obtain ⟨hw, hws⟩ := List.forall_mem_cons.mp h
    have hlen := length_setField hw
    rw [setFields, List.foldl_cons, ← hlen]
    exact ih fun w' hw' => by rw [hlen]; exact hws w' hw'

/-- A field that is written, or is there already, where no other one overlaps it. -/
theorem field_setFields_self {writes : List (Nat × List α)} {record : List α} {w : Nat × List α}
    (hw : w ∈ writes ∨ field w.1 w.2.length record = w.2)
    (h : ∀ w' ∈ writes, w'.1 + w'.2.length ≤ record.length ∧
      (w' = w ∨ w.1 + w.2.length ≤ w'.1 ∨ w'.1 + w'.2.length ≤ w.1)) :
    field w.1 w.2.length (setFields writes record) = w.2 := by
  induction writes generalizing record with
  | nil =>
    rcases hw with hw | hw
    · cases hw
    · exact hw
  | cons w' ws ih =>
    obtain ⟨⟨hin, hapart⟩, hws⟩ := List.forall_mem_cons.mp h
    have hlen := length_setField hin
    refine ih ?_ fun v hv => by rw [hlen]; exact hws v hv
    by_cases hself : w' = w
    · subst hself
      exact .inr (field_setField_same (by omega) rfl)
    · rcases hw with hw | hw
      · exact .inl ((List.mem_cons.mp hw).resolve_left fun heq => hself heq.symm)
      · right
        rcases hapart.resolve_left hself with hbefore | hafter
        · exact (field_setField_before hbefore (by omega)).trans hw
        · exact (field_setField_after hafter (by omega)).trans hw

/-! ## 2. Blocks -/

/-- The number of blocks that `n` cells need. -/
def blocks (block n : Nat) : Nat := n / block + if n % block = 0 then 0 else 1

/-- What is missing to whole blocks. -/
theorem blocks_mul {block : Nat} (hblock : 0 < block) (n : Nat) :
    blocks block n * block = n + if n % block = 0 then 0 else block - n % block := by
  have hdiv := Nat.div_add_mod n block
  have hmod := Nat.mod_lt n hblock
  unfold blocks
  rw [Nat.add_mul, Nat.mul_comm]
  split <;> omega

theorem blocks_pos {block n : Nat} (hn : 0 < n) : 0 < blocks block n := by
  unfold blocks
  split
  · next h =>
    have hdiv := Nat.div_add_mod n block
    rcases Nat.eq_zero_or_pos (n / block) with hzero | hpos
    · rw [hzero] at hdiv
      omega
    · exact Nat.add_pos_left hpos _
  · exact Nat.succ_pos _

end FixedFields

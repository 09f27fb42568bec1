import Mathlib.Data.List.Basic

/-!
# Longest common subsequences

The length of a longest common subsequence of two lists, by the table that compares their
heads, and the one whose items stand earliest in the second list.
-/

namespace Lcs

variable {α : Type} [DecidableEq α]

/-! ## 1. The length -/

/-- A row of the table, from the row below it. -/
def lcsRow (a : α) (below : List α → Nat) : List α → Nat
  | [] => 0
  | b :: bs => if a = b then below bs + 1 else max (below (b :: bs)) (lcsRow a below bs)

def lcs : List α → List α → Nat
  | [], _ => 0
  | a :: as, bs => lcsRow a (lcs as) bs

theorem lcs_cons_self (a : α) (as bs : List α) : lcs (a :: as) (a :: bs) = lcs as bs + 1 := by
  rw [lcs, lcsRow, if_pos rfl]

theorem lcs_cons_cons {a b : α} (h : a ≠ b) (as bs : List α) :
    lcs (a :: as) (b :: bs) = max (lcs as (b :: bs)) (lcs (a :: as) bs) := by
  rw [lcs, lcsRow, if_neg h]
  rfl

theorem lcs_nil_right (as : List α) : lcs as [] = 0 := by
  cases as <;> rfl

/-- Some common subsequence has this length. -/
theorem exists_common (as bs : List α) :
    ∃ zs : List α, zs.Sublist as ∧ zs.Sublist bs ∧ zs.length = lcs as bs := by
  induction as generalizing bs with
  | nil => exact ⟨[], List.Sublist.refl _, List.nil_sublist bs, rfl⟩
  | cons a as iha =>
    induction bs with
    | nil => exact ⟨[], List.nil_sublist _, List.Sublist.refl _, (lcs_nil_right _).symm⟩
    | cons b bs ihb =>
      by_cases h : a = b
      · obtain ⟨zs, ha, hb, hlen⟩ := iha bs
        subst h
        exact ⟨a :: zs, ha.cons_cons a, hb.cons_cons a, by rw [lcs_cons_self, ← hlen]; rfl⟩
      · rw [lcs_cons_cons h]
        rcases Nat.le_total (lcs (a :: as) bs) (lcs as (b :: bs)) with hle | hle
        · obtain ⟨zs, ha, hb, hlen⟩ := iha (b :: bs)
          exact ⟨zs, ha.cons a, hb, by rw [hlen, Nat.max_eq_left hle]⟩
        · obtain ⟨zs, ha, hb, hlen⟩ := ihb
          exact ⟨zs, ha, hb.cons b, by rw [hlen, Nat.max_eq_right hle]⟩

/-- None is longer. -/
theorem length_le {zs as bs : List α} (ha : zs.Sublist as) (hb : zs.Sublist bs) :
    zs.length ≤ lcs as bs := by
  induction as generalizing zs bs with
  | nil =>
    rw [List.sublist_nil.mp ha]
    exact Nat.zero_le _
  | cons a as iha =>
    induction bs generalizing zs with
    | nil =>
      rw [List.sublist_nil.mp hb]
      exact Nat.zero_le _
    | cons b bs ihb =>
      by_cases h : a = b
      · subst h
        rw [lcs_cons_self]
        have htail : zs.tail.length ≤ lcs as bs := iha ha.tail hb.tail
        rw [List.length_tail] at htail
        omega
      · rw [lcs_cons_cons h]
        rcases List.sublist_cons_iff.mp ha with ha' | ⟨t, rfl, _⟩
        · exact Nat.le_trans (iha ha' hb) (Nat.le_max_left _ _)
        · rcases List.sublist_cons_iff.mp hb with hb' | ⟨t', heq, _⟩
          · exact Nat.le_trans (ihb ha hb') (Nat.le_max_right _ _)
          · exact absurd (List.cons.inj heq).1 h

theorem lcs_mono {as as' bs bs' : List α} (ha : as.Sublist as') (hb : bs.Sublist bs') :
    lcs as bs ≤ lcs as' bs' := by
  obtain ⟨zs, hza, hzb, hlen⟩ := exists_common as bs
  exact hlen ▸ length_le (hza.trans ha) (hzb.trans hb)

/-! ## 2. The earliest one -/

/-- What follows the first occurrence of an item. -/
def after (b : α) : List α → Option (List α)
  | [] => none
  | a :: as => if a = b then some as else after b as

theorem after_sublist {b : α} {as rest : List α} (h : after b as = some rest) :
    (b :: rest).Sublist as := by
  induction as with
  | nil => simp [after] at h
  | cons a as ih =>
    rw [after] at h
    split at h
    case isTrue hab =>
      subst hab
      cases h
      exact List.Sublist.refl _
    case isFalse => exact (ih h).cons a

theorem after_append (b : α) (pre as : List α) :
    after b (pre ++ as) = (after b pre).elim (after b as) fun p => some (p ++ as) := by
  induction pre with
  | nil => rfl
  | cons a pre ih =>
    rw [List.cons_append, after, after]
    split
    · rfl
    · exact ih

theorem after_suffix {b : α} {as rest : List α} (h : after b as = some rest) :
    ∃ q, as = q ++ rest := by
  induction as with
  | nil => simp [after] at h
  | cons a as ih =>
    rw [after] at h
    split at h
    case isTrue => exact ⟨[a], by simpa using h⟩
    case isFalse =>
      obtain ⟨q, rfl⟩ := ih h
      exact ⟨a :: q, rfl⟩

/-- A subsequence that begins with an item may begin with its first occurrence. -/
theorem after_of_sublist {b : α} {as zs : List α} (h : (b :: zs).Sublist as) :
    ∃ rest, after b as = some rest ∧ zs.Sublist rest := by
  induction as with
  | nil => simp at h
  | cons a as ih =>
    rw [after]
    split
    case isTrue => exact ⟨as, rfl, h.tail⟩
    case isFalse hab =>
      rcases List.sublist_cons_iff.mp h with h' | ⟨t, heq, _⟩
      · exact ih h'
      · exact absurd (List.cons.inj heq).1.symm hab

theorem lcs_after {b : α} {as rest : List α} (bs : List α) (h : after b as = some rest) :
    lcs rest bs + 1 ≤ lcs as (b :: bs) := by
  rw [← lcs_cons_self b]
  exact lcs_mono (after_sublist h) (List.Sublist.refl _)

/-- The next item of the second list helps only with its first occurrence in the first one. -/
theorem lcs_cons_right (as : List α) (b : α) (bs : List α) :
    lcs as (b :: bs) = lcs as bs ∨
      ∃ rest, after b as = some rest ∧ lcs as (b :: bs) = lcs rest bs + 1 := by
  obtain ⟨zs, ha, hb, hlen⟩ := exists_common as (b :: bs)
  rcases List.sublist_cons_iff.mp hb with hb' | ⟨t, rfl, ht⟩
  · left
    exact Nat.le_antisymm (hlen ▸ length_le ha hb')
      (lcs_mono (List.Sublist.refl _) (List.sublist_cons_self b bs))
  · right
    obtain ⟨rest, hrest, hsub⟩ := after_of_sublist ha
    have hle : t.length ≤ lcs rest bs := length_le hsub ht
    have hge : lcs rest bs + 1 ≤ lcs as (b :: bs) := lcs_after bs hrest
    rw [List.length_cons] at hlen
    exact ⟨rest, hrest, by omega⟩

/-- The longest common subsequence that takes an item of the second list, with its first
    occurrence in the first one, as soon as one that is longest can take it. -/
def earliest (as : List α) : List α → List α
  | [] => []
  | b :: bs =>
    match after b as with
    | some rest =>
      if lcs rest bs + 1 = lcs as (b :: bs) then b :: earliest rest bs else earliest as bs
    | none => earliest as bs

theorem earliest_nil (bs : List α) : earliest [] bs = [] := by
  induction bs with
  | nil => rfl
  | cons b bs ih => exact ih

theorem earliest_taken {b : α} {as rest bs : List α} (hafter : after b as = some rest)
    (h : lcs as (b :: bs) = lcs rest bs + 1) : earliest as (b :: bs) = b :: earliest rest bs := by
  simp only [earliest, hafter, h, if_true]

theorem earliest_passed {b : α} {as bs : List α}
    (h : ∀ rest, after b as = some rest → lcs as (b :: bs) ≠ lcs rest bs + 1) :
    earliest as (b :: bs) = earliest as bs := by
  rw [earliest]
  cases hafter : after b as with
  | none => rfl
  | some rest => exact if_neg (h rest hafter).symm

theorem earliest_cons_self (a : α) (as bs : List α) :
    earliest (a :: as) (a :: bs) = a :: earliest as bs :=
  earliest_taken (by rw [after, if_pos rfl]) (lcs_cons_self a as bs)

/-- Items in front without which a common subsequence is as long change nothing. -/
theorem earliest_append_left {pre as bs : List α} (h : lcs (pre ++ as) bs = lcs as bs) :
    earliest (pre ++ as) bs = earliest as bs := by
  induction bs generalizing pre as with
  | nil => rfl
  | cons b bs ih =>
    have hmono : ∀ pre : List α, lcs as bs ≤ lcs (pre ++ as) bs := fun pre =>
      lcs_mono (List.sublist_append_right pre as) (List.Sublist.refl _)
    by_cases htaken : ∃ rest, after b as = some rest ∧ lcs as (b :: bs) = lcs rest bs + 1
    · obtain ⟨rest, hafter, hlen⟩ := htaken
      rw [earliest_taken hafter hlen]
      cases hpre : after b pre with
      | none => exact earliest_taken (by rw [after_append, hpre]; exact hafter) (h.trans hlen)
      | some p =>
        have hfirst : after b (pre ++ as) = some (p ++ as) := by rw [after_append, hpre]; rfl
        obtain ⟨q, rfl⟩ := after_suffix hafter
        have hle : lcs (p ++ (q ++ rest)) bs + 1 ≤ lcs (pre ++ (q ++ rest)) (b :: bs) :=
          lcs_after bs hfirst
        have hge : lcs rest bs ≤ lcs (p ++ (q ++ rest)) bs :=
          lcs_mono (by rw [← List.append_assoc]; exact List.sublist_append_right _ _)
            (List.Sublist.refl _)
        have hsame : lcs (p ++ (q ++ rest)) bs = lcs rest bs := by omega
        rw [earliest_taken hfirst (by omega), ← List.append_assoc, ih]
        rw [List.append_assoc, hsame]
    · have hless : lcs as (b :: bs) = lcs as bs := (lcs_cons_right as b bs).resolve_right htaken
      have hpass : ∀ rest, after b (pre ++ as) = some rest →
          lcs (pre ++ as) (b :: bs) ≠ lcs rest bs + 1 := by
        intro rest hafter heq
        rw [after_append] at hafter
        cases hpre : after b pre with
        | none => exact htaken ⟨rest, by simpa [hpre] using hafter, h.symm.trans heq⟩
        | some p =>
          obtain rfl : p ++ as = rest := by simpa [hpre] using hafter
          have := hmono p
          omega
      have hshort : lcs (pre ++ as) bs ≤ lcs (pre ++ as) (b :: bs) :=
        lcs_mono (List.Sublist.refl _) (List.sublist_cons_self b bs)
      rw [earliest_passed fun rest hafter heq => htaken ⟨rest, hafter, heq⟩,
        earliest_passed hpass, ih]
      exact Nat.le_antisymm (by omega) (hmono pre)

/-- An item of the first list without which a common subsequence is as long is passed over. -/
theorem earliest_pass_left {a b : α} (h : a ≠ b) {as bs : List α}
    (hle : lcs (a :: as) bs ≤ lcs as (b :: bs)) :
    earliest (a :: as) (b :: bs) = earliest as (b :: bs) :=
  @earliest_append_left α _ [a] as (b :: bs) (by
    rw [List.singleton_append, lcs_cons_cons h, Nat.max_eq_left hle])

/-- Otherwise the item of the second list is, since no longest one has it. -/
theorem earliest_pass_right {a b : α} (h : a ≠ b) {as bs : List α}
    (hlt : lcs as (b :: bs) < lcs (a :: as) bs) :
    earliest (a :: as) (b :: bs) = earliest (a :: as) bs := by
  apply earliest_passed
  intro rest hafter heq
  rw [after, if_neg h] at hafter
  have hshort : lcs rest bs + 1 ≤ lcs as (b :: bs) := lcs_after bs hafter
  rw [lcs_cons_cons h] at heq
  omega

theorem earliest_sublist (as bs : List α) :
    (earliest as bs).Sublist as ∧ (earliest as bs).Sublist bs := by
  induction bs generalizing as with
  | nil => exact ⟨List.nil_sublist as, List.Sublist.refl _⟩
  | cons b bs ih =>
    rw [earliest]
    split
    case h_1 rest hafter =>
      split
      · exact ⟨((ih rest).1.cons_cons b).trans (after_sublist hafter), (ih rest).2.cons_cons b⟩
      · exact ⟨(ih as).1, (ih as).2.cons b⟩
    case h_2 => exact ⟨(ih as).1, (ih as).2.cons b⟩

example : earliest [1, 2, 3, 4] [2, 5, 1, 4] = [2, 4] := by decide

end Lcs

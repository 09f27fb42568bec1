import Mathlib.Data.List.DropRight
import Mathlib.Tactic

/-!
# Windows around selected items

The items of a list that stand near a selected one, shown in order with a separator between
two that were not neighbours.  `shownNear` judges each item by its own distances; `keeps`
goes through the list once, with what is left of the window behind the last selected item.
-/

namespace Windows

variable {α : Type}

/-! ## 1. What is shown -/

/-- A line of the output: a numbered item, or a separator. -/
inductive Shown (α : Type) where
  | item (number : Nat) (a : α)
  | separator
  deriving DecidableEq, Repr

/-- An item stands at most so many places behind, or before, a selected one. -/
def Near (after before : Nat) (selected : List Bool) (i : Nat) : Prop :=
  ∃ j < selected.length, selected[j]? = some true ∧ i ≤ j + after ∧ j ≤ i + before

instance (after before : Nat) (selected : List Bool) : DecidablePred (Near after before selected) :=
  fun i => inferInstanceAs (Decidable (∃ j < selected.length,
    selected[j]? = some true ∧ i ≤ j + after ∧ j ≤ i + before))

/-- The marked items in order, from a number on; the flags say whether anything was shown
    before, and whether the item in front was. -/
def shown : Bool → Bool → Nat → List (α × Bool) → List (Shown α)
  | _, _, _, [] => []
  | any, front, number, (a, true) :: items =>
    (if any && !front then [.separator] else []) ++
      .item number a :: shown true true (number + 1) items
  | any, _, number, (_, false) :: items => shown any false (number + 1) items

/-- The items near a selected one. -/
def shownNear (after before : Nat) (items : List (α × Bool)) : List (Shown α) :=
  shown false false 1
    (items.mapIdx fun i e => (e.1, decide (Near after before (items.map Prod.snd) i)))

/-- Only the first of the selected items, when there is a limit. -/
def select : Option Nat → List (α × Bool) → List (α × Bool)
  | _, [] => []
  | some 0, items => items.map fun e => (e.1, false)
  | some (n + 1), (a, true) :: items => (a, true) :: select (some n) items
  | max, e :: items => e :: select max items

/-- What stands behind so many selected items. -/
def behind : Nat → List (α × Bool) → List (α × Bool)
  | 0, items => items
  | _, [] => []
  | n + 1, (_, true) :: items => behind n items
  | n + 1, (_, false) :: items => behind (n + 1) items

/-- The number of items right before each selected one. -/
def gapsFrom : Nat → List (α × Bool) → List Nat
  | _, [] => []
  | g, (_, true) :: items => g :: gapsFrom 0 items
  | g, (_, false) :: items => gapsFrom (g + 1) items

/-- The number of items between each two selected ones that follow each other. -/
def gaps (items : List (α × Bool)) : List Nat := (gapsFrom 0 items).tail

/-! ## 2. In one pass -/

/-- The marks of the items near a selected one, `left` being left of a window. -/
def keeps (after before : Nat) : Nat → List (α × Bool) → List (α × Bool)
  | _, [] => []
  | left, (a, sel) :: items =>
    (a, sel || decide (0 < left) || (items.take before).any Prod.snd) ::
      keeps after before (if sel then after else left - 1) items

section

variable {after before left : Nat}

theorem near_zero {sel : Bool} {flags : List Bool} :
    Near after before (sel :: flags) 0 ↔ sel = true ∨ (flags.take before).any id = true := by
  constructor
  · rintro ⟨_ | j, hj, hsel, -, hle⟩
    · exact .inl (by simpa using hsel)
    · refine .inr (List.any_eq_true.mpr ⟨true, ?_, rfl⟩)
      rw [List.getElem?_cons_succ] at hsel
      exact List.mem_take_iff_getElem.mpr (by
        rcases List.getElem?_eq_some_iff.mp hsel with ⟨hlt, heq⟩
        exact ⟨j, by omega, heq⟩)
  · rintro (rfl | h)
    · exact ⟨0, by simp, rfl, Nat.zero_le _, Nat.zero_le _⟩
    · rcases List.any_eq_true.mp h with ⟨b, hb, rfl⟩
      rcases List.mem_take_iff_getElem.mp hb with ⟨j, hj, heq⟩
      have hlt : j < flags.length := by omega
      exact ⟨j + 1, by simpa using hlt, by simp [hlt, heq],
        Nat.zero_le _, by omega⟩

theorem near_succ {sel : Bool} {flags : List Bool} {i : Nat} :
    Near after before (sel :: flags) (i + 1) ↔
      (sel = true ∧ i < after) ∨ Near after before flags i := by
  constructor
  · rintro ⟨_ | j, hj, hsel, hafter, hbefore⟩
    · exact .inl ⟨by simpa using hsel, by omega⟩
    · exact .inr ⟨j, by simpa using hj, by simpa using hsel, by omega, by omega⟩
  · rintro (⟨rfl, hi⟩ | ⟨j, hj, hsel, hafter, hbefore⟩)
    · exact ⟨0, by simp, rfl, by omega, by omega⟩
    · exact ⟨j + 1, by simpa using hj, by simpa using hsel, by omega, by omega⟩

/-- The pass marks the items near a selected one and those left of the first window. -/
theorem keeps_eq (hleft : left ≤ after) (items : List (α × Bool)) :
    keeps after before left items = items.mapIdx fun i e =>
      (e.1, decide (i < left ∨ Near after before (items.map Prod.snd) i)) := by
  induction items generalizing left with
  | nil => rfl
  | cons e items ih =>
    rcases e with ⟨a, sel⟩
    rw [keeps, List.mapIdx_cons, ih (by split <;> omega)]
    congr 1
    · congr 1
      rw [Bool.eq_iff_iff]
      simp only [Bool.or_eq_true, decide_eq_true_eq, List.map_cons, near_zero]
      rw [← List.map_take, List.any_map]
      tauto
    · congr 1
      funext i e'
      congr 1
      rw [Bool.eq_iff_iff]
      simp only [decide_eq_true_eq, List.map_cons, near_succ]
      cases sel
      · simp only [Bool.false_eq_true, false_and, false_or, if_false]
        rw [Nat.lt_sub_iff_add_lt]
      · simp only [true_and, if_true]
        constructor
        · rintro (h | h)
          · exact .inr (.inl h)
          · exact .inr (.inr h)
        · rintro (h | h)
          · exact .inl (by omega)
          · exact h

theorem shownNear_eq (after before : Nat) (items : List (α × Bool)) :
    shownNear after before items = shown false false 1 (keeps after before 0 items) := by
  rw [keeps_eq (Nat.zero_le _), shownNear]
  simp only [Nat.not_lt_zero, false_or]

/-! ## 3. From one selected item to the next -/

/-- The items with their numbers. -/
def numbered : Nat → List α → List (Nat × α)
  | _, [] => []
  | n, a :: as => (n, a) :: numbered (n + 1) as

/-- The items as they are shown one behind the other. -/
def row (n : Nat) (as : List α) : List (Shown α) := (numbered n as).map fun e => .item e.1 e.2

theorem length_numbered (n : Nat) (as : List α) : (numbered n as).length = as.length := by
  induction as generalizing n with
  | nil => rfl
  | cons a as ih => rw [numbered, List.length_cons, ih, List.length_cons]

theorem numbered_drop (n k : Nat) (as : List α) :
    (numbered n as).drop k = numbered (n + k) (as.drop k) := by
  induction as generalizing n k with
  | nil => cases k <;> rfl
  | cons a as ih =>
    cases k with
    | zero => rfl
    | succ k =>
      rw [numbered, List.drop_succ_cons, ih, List.drop_succ_cons, Nat.add_right_comm, Nat.add_assoc]

theorem numbered_rtake (n k : Nat) (as : List α) :
    (numbered n as).rtake k = numbered (n + (as.length - k)) (as.rtake k) := by
  rw [List.rtake, numbered_drop, length_numbered, List.rtake]

theorem shown_marked (any front : Bool) (n : Nat) (as : List α) (items : List (α × Bool)) :
    shown any front n (as.map (fun a => (a, true)) ++ items) =
      (if any && !front && !as.isEmpty then [.separator] else []) ++ row n as ++
        shown (any || !as.isEmpty) (front || !as.isEmpty) (n + as.length) items := by
  induction as generalizing any front n with
  | nil => simp [row, numbered]
  | cons a as ih =>
    rw [List.map_cons, List.cons_append, shown, ih]
    simp [row, numbered, Nat.add_assoc, Nat.add_comm 1]

theorem shown_unmarked (any front : Bool) (n : Nat) (as : List α) (items : List (α × Bool)) :
    shown any front n (as.map (fun a => (a, false)) ++ items) =
      shown any (front && as.isEmpty) (n + as.length) items := by
  induction as generalizing front n with
  | nil => simp
  | cons a as ih =>
    rw [List.map_cons, List.cons_append, shown, ih]
    simp [Nat.add_assoc, Nat.add_comm 1]

/-- Behind the last selected item only its window is marked. -/
theorem keeps_end (as : List α) :
    keeps after before left (as.map fun a => (a, false)) =
      (as.take left).map (fun a => (a, true)) ++ (as.drop left).map fun a => (a, false) := by
  induction as generalizing left with
  | nil => simp [keeps]
  | cons a as ih =>
    have hnone : (((as.map fun a => (a, false)).take before).any Prod.snd) = false := by
      rw [← List.map_take, List.any_map]
      exact List.any_eq_false.mpr fun _ _ => Bool.false_ne_true
    rw [List.map_cons, keeps, hnone, ih]
    cases left <;> simp

/-- Before a selected item the two windows are marked. -/
theorem keeps_gap (as : List α) (m : α) (items : List (α × Bool)) :
    keeps after before left (as.map (fun a => (a, false)) ++ (m, true) :: items) =
      (as.take left).map (fun a => (a, true)) ++
        (((as.drop left).rdrop before).map (fun a => (a, false)) ++
          (((as.drop left).rtake before).map (fun a => (a, true)) ++
            (m, true) :: keeps after before after items)) := by
  induction as generalizing left with
  | nil => simp [keeps, List.rdrop, List.rtake]
  | cons a as ih =>
    have hsel : ((as.map (fun a => (a, false)) ++ (m, true) :: items).take before).any Prod.snd =
        decide (as.length < before) := by
      rw [Bool.eq_iff_iff, List.any_eq_true, decide_eq_true_eq]
      constructor
      · rintro ⟨e, he, hsel⟩
        by_contra hle
        rw [List.take_append_of_le_length (by simpa using Nat.le_of_not_lt hle)] at he
        rcases List.mem_map.mp (List.mem_of_mem_take he) with ⟨b, -, rfl⟩
        cases hsel
      · intro hlt
        refine ⟨(m, true), ?_, rfl⟩
        obtain ⟨k, hk⟩ : ∃ k, before = as.length + (k + 1) := ⟨before - as.length - 1, by omega⟩
        rw [List.take_append, List.length_map, hk, Nat.add_sub_cancel_left, List.take_succ_cons]
        exact List.mem_append_right _ (.head _)
    rw [List.map_cons, List.cons_append, keeps, hsel, ih]
    cases left with
    | succ left => simp
    | zero =>
      by_cases hlt : as.length < before
      · have hnone : as.length - before = 0 := by omega
        simp [List.rdrop, List.rtake, hlt, hnone]
      · have hlen : as.length + 1 - before = (as.length - before) + 1 := by omega
        simp [List.rdrop, List.rtake, hlt, hlen]

/-- What is shown up to the next selected item and from there on. -/
theorem shown_gap {any : Bool} (hleft : any = false → left = 0) (n : Nat) (as : List α) (m : α)
    (items : List (α × Bool)) :
    shown any any n (keeps after before left (as.map (fun a => (a, false)) ++ (m, true) :: items)) =
      row n (as.take left) ++
        ((if any = true ∧ before < (as.drop left).length then [.separator] else []) ++
          (((numbered n as).drop left).rtake before).map (fun e => .item e.1 e.2) ++
            .item (n + as.length) m :: shown true true (n + as.length + 1)
              (keeps after before after items)) := by
  have hpass : (any || !(as.take left).isEmpty) = any := by
    cases any with
    | false => rw [hleft rfl]; rfl
    | true => rfl
  have hgap : ((as.drop left).rdrop before).isEmpty = !decide (before < (as.drop left).length) := by
    rw [List.rdrop, Bool.eq_iff_iff, List.isEmpty_iff, List.take_eq_nil_iff]
    simp only [Bool.not_eq_true', decide_eq_false_iff_not]
    constructor
    · rintro (h | h)
      · omega
      · simp [h]
    · intro h
      exact .inl (by omega)
  have hlen := congrArg List.length (List.take_append_drop left as)
  have hlen' := congrArg List.length
    (List.take_append_drop ((as.drop left).length - before) (as.drop left))
  rw [List.length_append] at hlen hlen'
  have hrow : row (n + (as.take left).length + ((as.drop left).rdrop before).length)
      ((as.drop left).rtake before) =
        (((numbered n as).drop left).rtake before).map fun e => .item e.1 e.2 := by
    rw [numbered_drop, numbered_rtake, row]
    by_cases hle : left ≤ as.length
    · rw [List.length_take_of_le hle, List.rdrop, List.length_take_of_le (Nat.sub_le _ _)]
    · have hnil : as.drop left = [] := List.drop_eq_nil_of_le (by omega)
      rw [hnil, List.rtake_nil]
      rfl
  rw [keeps_gap, shown_marked, shown_unmarked, shown_marked, shown, hpass, hrow, hgap]
  have hnumber : n + (as.take left).length + ((as.drop left).rdrop before).length +
      ((as.drop left).rtake before).length = n + as.length := by
    rw [List.rdrop, List.rtake]
    omega
  have hempty : ((as.drop left).rtake before).isEmpty = true →
      (((numbered n as).drop left).rtake before).map
        (fun e => (.item e.1 e.2 : Shown α)) = [] := by
    intro h
    rw [← hrow, List.isEmpty_iff.mp h]
    rfl
  rw [hnumber]
  cases hR : ((as.drop left).rtake before).isEmpty with
  | true =>
    rw [hempty hR]
    cases any <;> simp
  | false => cases any <;> simp

/-- What is shown behind the last selected item. -/
theorem shown_end {any : Bool} (hleft : any = false → left = 0) (n : Nat) (as : List α) :
    shown any any n (keeps after before left (as.map fun a => (a, false))) =
      row n (as.take left) := by
  have hnone : ∀ (any front : Bool) n (bs : List α),
      shown any front n (bs.map fun a => (a, false)) = [] := by
    intro any front n bs
    have h := shown_unmarked any front n bs []
    rw [List.append_nil] at h
    exact h
  rw [keeps_end, shown_marked, hnone, List.append_nil]
  cases any with
  | false => rw [hleft rfl]; simp
  | true => simp

/-- Two continuations of the output agree when their separators do and what follows does. -/
theorem separated_eq_iff {p q : Prop} [Decidable p] [Decidable q] (es : List (Nat × α)) (n : Nat)
    (m : α) (xs ys : List (Shown α)) :
    (if p then [.separator] else []) ++ es.map (fun e => .item e.1 e.2) ++ .item n m :: xs =
        (if q then [.separator] else []) ++ es.map (fun e => .item e.1 e.2) ++ .item n m :: ys ↔
      (p ↔ q) ∧ xs = ys := by
  by_cases hp : p <;> by_cases hq : q <;> cases es <;> simp [hp, hq]

/-! ## 4. Items that are not selected -/

theorem select_unmarked (max : Option Nat) (as : List α) :
    select max (as.map fun a => (a, false)) = as.map fun a => (a, false) := by
  induction as with
  | nil => rcases max with _ | _ | n <;> rfl
  | cons a as ih => rcases max with _ | _ | n <;> simp_all [select]

theorem select_gap {max : Option Nat} (hmax : max ≠ some 0) (as : List α) (m : α)
    (items : List (α × Bool)) :
    select max (as.map (fun a => (a, false)) ++ (m, true) :: items) =
      as.map (fun a => (a, false)) ++ (m, true) :: select (max.map (· - 1)) items := by
  induction as with
  | nil => rcases max with _ | _ | n <;> simp_all [select]
  | cons a as ih => rcases max with _ | _ | n <;> simp_all [select]

theorem select_zero (items : List (α × Bool)) :
    select (some 0) items = (items.map Prod.fst).map fun a => (a, false) := by
  cases items <;> simp [select]

theorem gapsFrom_unmarked (g : Nat) (as : List α) :
    gapsFrom g (as.map fun a => (a, false)) = [] := by
  induction as generalizing g with
  | nil => rfl
  | cons a as ih => exact ih (g + 1)

theorem gapsFrom_gap (g : Nat) (as : List α) (m : α) (items : List (α × Bool)) :
    gapsFrom g (as.map (fun a => (a, false)) ++ (m, true) :: items) =
      (g + as.length) :: gapsFrom 0 items := by
  induction as generalizing g with
  | nil => rfl
  | cons a as ih =>
    rw [List.map_cons, List.cons_append, gapsFrom, ih, List.length_cons, Nat.add_assoc,
      Nat.add_comm 1]

theorem behind_unmarked (n : Nat) (as : List α) :
    behind (n + 1) (as.map fun a => (a, false)) = [] := by
  induction as with
  | nil => rfl
  | cons a as ih => exact ih

theorem behind_gap (n : Nat) (as : List α) (m : α) (items : List (α × Bool)) :
    behind (n + 1) (as.map (fun a => (a, false)) ++ (m, true) :: items) = behind n items := by
  induction as with
  | nil => rfl
  | cons a as ih => exact ih

end

end Windows

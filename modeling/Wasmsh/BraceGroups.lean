import Wasmsh.BraceViews
import Wasmsh.Library.Brackets

/-!
# The groups of a word

What the brace groups of a word stand for, read off the word at once: every pair of braces
whose inside is a list or a range gives its items, wherever it stands, and the items of
several groups are combined from left to right.  `expand_braces` rewrites the text instead
and looks only at the first pair: it ends there when that pair gives no items.

A brace or comma directly behind a backslash counts for nothing.
-/

namespace Wasmsh.BraceGroups

open Braces Brackets

/-! ## 1. Characters that count -/

/-- A character, and whether it does not stand directly behind a backslash. -/
abbrev Tok := Char × Bool

def braces : Alphabet Tok where
  left := ('{', true)
  right := ('}', true)
  sep := (',', true)
  right_ne_left := by decide
  sep_ne_left := by decide
  sep_ne_right := by decide

/-- The characters of a text; `esc` says that a backslash stands before it. -/
def marks : Bool → List Char → List Tok
  | _, [] => []
  | esc, c :: cs => (c, !esc) :: marks (c == '\\') cs

def chars (ts : List Tok) : List Char := ts.map Prod.fst

/-- A text in which every character counts. -/
def active (text : List Char) : List Tok := text.map fun c => (c, true)

/-! ## 2. Groups -/

/-- `N..M` or `N..M..S`. -/
structure BraceRange where
  start : Int
  stop : Int
  step : Int
  width : Nat
  pad : Bool

/-- The range between two braces: both ends are integers, and so is the step, which is not
    zero. -/
def parseBraceRange (inner : List Char) : Option BraceRange := do
  let (first, rest) ← splitDots inner
  let (second, third) := match splitDots rest with
    | some (second, third) => (second, some third)
    | none => (rest, none)
  let start ← parseI64 first
  let stop ← parseI64 second
  let step ← parseBraceStep third start stop
  some { start, stop, step, width := max first.length second.length,
         pad := startsWithZero first || startsWithZero second }

/-- How many numbers follow the first one. -/
def BraceRange.steps (r : BraceRange) : Nat := (r.stop - r.start).natAbs / r.step.natAbs

/-- From `start` towards `stop`, as far as it; the step says how far apart the numbers are. -/
def BraceRange.numbers (r : BraceRange) : List Int :=
  let towards : Int := if r.start ≤ r.stop then 1 else -1
  (List.range (r.steps + 1)).map fun i : Nat => r.start + towards * r.step.natAbs * i

def BraceRange.texts (r : BraceRange) : List (List Char) :=
  r.numbers.map fun n => rangeItem n r.width r.pad

/-- The step points away from `stop`. -/
def BraceRange.Away (r : BraceRange) : Prop :=
  (r.start < r.stop ∧ r.step < 0) ∨ (r.stop < r.start ∧ 0 < r.step)

/-- The items of the group with this inside: a range, or a list of at least two. -/
def groupItems (inner : List Tok) : Option (List (List Tok)) :=
  match parseBraceRange (chars inner) with
  | some r => some (r.texts.map active)
  | none =>
    let items := pieces braces 0 inner
    if 1 < items.length then some items else none

/-! ## 3. The expansion -/

/-- Every first text with every second one, the first in the outer loop. -/
def product (us vs : List (List Char)) : List (List Char) := us.flatMap fun u => vs.map (u ++ ·)

/-- The product of the groups; the first argument is at least the length of the list. -/
def expandFrom : Nat → List Tok → List (List Char)
  | 0, ts => [chars ts]
  | _, [] => [[]]
  | n + 1, t :: ts =>
    if t = braces.left then
      match closeOf braces 0 ts with
      | none => (expandFrom n ts).map ('{' :: ·)
      | some (inner, behind) =>
        match groupItems inner with
        | some items => product (items.flatMap (expandFrom n)) (expandFrom n behind)
        | none =>
          -- the pair stays, with what its inside stands for
          product ((expandFrom n inner).map fun u => '{' :: (u ++ ['}'])) (expandFrom n behind)
    else (expandFrom n ts).map (t.1 :: ·)

def expand (ts : List Tok) : List (List Char) := expandFrom ts.length ts

/-- What the groups of a word stand for. -/
def expansion (word : List Char) : List (List Char) := expand (marks false word)

example : expansion "\x7bx\x7d\x7ba,b\\,c\x7d".toList =
    ["\x7bx\x7da", "\x7bx\x7db\\,c"].map String.toList := by decide +kernel

/-- A group stands somewhere in the list. -/
def HasGroup (ts : List Tok) : Prop :=
  ∃ inner, PairIn braces ts inner ∧ (groupItems inner).isSome = true

variable {t : Tok} {ts inner behind before item : List Tok} {items : List (List Tok)}

@[simp] theorem chars_nil : chars [] = [] := rfl

@[simp] theorem chars_cons (t : Tok) (ts : List Tok) : chars (t :: ts) = t.1 :: chars ts := rfl

@[simp] theorem chars_append (us ts : List Tok) : chars (us ++ ts) = chars us ++ chars ts :=
  List.map_append

@[simp] theorem chars_active (text : List Char) : chars (active text) = text := by
  simp [chars, active, Function.comp_def]

@[simp] theorem length_chars (ts : List Tok) : (chars ts).length = ts.length := List.length_map _

@[simp] theorem chars_marks (esc : Bool) (text : List Char) : chars (marks esc text) = text := by
  induction text generalizing esc with
  | nil => rfl
  | cons c cs ih => rw [marks, chars_cons, ih]

theorem product_assoc (us vs ws : List (List Char)) :
    product (product us vs) ws = product us (product vs ws) := by
  simp [product, List.flatMap_assoc, List.map_flatMap, List.flatMap_map, Function.comp_def]

theorem product_map_append (us vs : List (List Char)) (u : List Char) :
    product (us.map (u ++ ·)) vs = (product us vs).map (u ++ ·) := by
  simp [product, List.map_flatMap, List.flatMap_map, Function.comp_def]

theorem product_singleton (u : List Char) (vs : List (List Char)) :
    product [u] vs = vs.map (u ++ ·) := by
  simp [product]

theorem mem_product {us vs : List (List Char)} {text : List Char} :
    text ∈ product us vs ↔ ∃ u ∈ us, ∃ v ∈ vs, text = u ++ v := by
  simp [product, eq_comm]

theorem length_product (us vs : List (List Char)) :
    (product us vs).length = us.length * vs.length := by
  simp [product, List.length_flatMap]

/-! ## 4. Enough rounds -/

theorem not_mem_texts {r : BraceRange} {text : List Char} (h : text ∈ r.texts) {d : Char}
    (hd : d.isDigit = false) (hminus : d ≠ '-') : d ∉ text := by
  rcases List.mem_map.mp h with ⟨n, -, rfl⟩
  intro hmem
  exact ne_of_mem_rangeItem hmem hd hminus rfl

theorem not_mem_active {text : List Char} {c : Char} {flag : Bool} (h : c ∉ text) :
    (c, flag) ∉ active text := by
  intro hmem
  rcases List.mem_map.mp hmem with ⟨d, hd, heq⟩
  rw [Prod.mk.injEq] at heq
  exact h (heq.1 ▸ hd)

/-- The items of a group: numbers, or what the commas cut off. -/
theorem mem_groupItems (h : groupItems inner = some items) (hitem : item ∈ items) :
    (∃ r : BraceRange, ∃ text ∈ r.texts, item = active text) ∨ item ∈ pieces braces 0 inner := by
  unfold groupItems at h
  split at h
  · next r hr =>
    cases h
    rcases List.mem_map.mp hitem with ⟨text, htext, rfl⟩
    exact .inl ⟨r, text, htext, rfl⟩
  · dsimp only at h
    split at h
    · cases h
      exact .inr hitem
    · cases h

theorem short_or_plain (h : groupItems inner = some items) (hitem : item ∈ items) :
    item.length ≤ inner.length ∨ braces.left ∉ item := by
  rcases mem_groupItems h hitem with ⟨r, text, htext, rfl⟩ | hpiece
  · exact .inr (not_mem_active (not_mem_texts htext (by decide) (by decide)))
  · exact .inl (infix_of_mem_pieces hpiece).length_le

theorem expandFrom_of_not_mem (h : braces.left ∉ ts) (n : Nat) : expandFrom n ts = [chars ts] := by
  induction ts generalizing n with
  | nil => cases n <;> rfl
  | cons t ts ih =>
    simp only [List.mem_cons, not_or] at h
    cases n with
    | zero => rfl
    | succ n =>
      rw [expandFrom, if_neg (Ne.symm h.1), ih h.2]
      rfl

/-- More rounds than the list is long change nothing. -/
theorem expandFrom_eq {n m : Nat} (hn : ts.length ≤ n) (hm : ts.length ≤ m) :
    expandFrom n ts = expandFrom m ts := by
  induction n generalizing m ts with
  | zero =>
    obtain rfl := List.eq_nil_of_length_eq_zero (Nat.le_zero.mp hn)
    cases m <;> rfl
  | succ n ih =>
    cases ts with
    | nil => cases m <;> rfl
    | cons t ts =>
      cases m with
      | zero => simp at hm
      | succ m =>
        rw [List.length_cons, Nat.add_le_add_iff_right] at hn hm
        rw [expandFrom, expandFrom]
        split
        · split
          · rw [ih hn hm]
          · next inner behind hclose =>
            have hlen : ts.length = inner.length + (behind.length + 1) := by
              simpa using congrArg List.length (closeOf_split hclose)
            have hbehind : expandFrom n behind = expandFrom m behind := ih (by omega) (by omega)
            split
            · next items hitems =>
              have hall : ∀ item ∈ items, expandFrom n item = expandFrom m item := by
                intro item hitem
                rcases short_or_plain hitems hitem with hshort | hplain
                · exact ih (by omega) (by omega)
                · rw [expandFrom_of_not_mem hplain, expandFrom_of_not_mem hplain]
              rw [hbehind, List.flatMap_def, List.flatMap_def, List.map_congr_left hall]
            · have hinner : expandFrom n inner = expandFrom m inner := ih (by omega) (by omega)
              rw [hbehind, hinner]
        · rw [ih hn hm]

/-! ## 5. The expansion, case by case -/

/-- What a pair with this inside stands for. -/
def grouped (inner : List Tok) : List (List Char) :=
  match groupItems inner with
  | some items => items.flatMap expand
  | none => (expand inner).map fun u => '{' :: (u ++ ['}'])

theorem grouped_of_some (h : groupItems inner = some items) :
    grouped inner = items.flatMap expand := by
  simp only [grouped, h]

theorem grouped_of_none (h : groupItems inner = none) :
    grouped inner = (expand inner).map fun u => '{' :: (u ++ ['}']) := by
  simp only [grouped, h]

@[simp] theorem expand_nil : expand [] = [[]] := rfl

theorem expand_of_not_mem (h : braces.left ∉ ts) : expand ts = [chars ts] :=
  expandFrom_of_not_mem h _

theorem expand_cons (ht : t ≠ braces.left) : expand (t :: ts) = (expand ts).map (t.1 :: ·) := by
  rw [expand, List.length_cons, expandFrom, if_neg ht, expand]

theorem expand_open (h : closeOf braces 0 ts = none) :
    expand (braces.left :: ts) = (expand ts).map ('{' :: ·) := by
  rw [expand, List.length_cons, expandFrom, if_pos rfl]
  simp only [h]
  rfl

theorem expand_group (h : closeOf braces 0 ts = some (inner, behind)) :
    expand (braces.left :: ts) = product (grouped inner) (expand behind) := by
  have hlen : ts.length = inner.length + (behind.length + 1) := by
    simpa using congrArg List.length (closeOf_split h)
  have hbehind : expandFrom ts.length behind = expand behind :=
    expandFrom_eq (by omega) (Nat.le_refl _)
  rw [expand, List.length_cons, expandFrom, if_pos rfl]
  simp only [h]
  rw [hbehind]
  cases hitems : groupItems inner with
  | none =>
    have hinner : expandFrom ts.length inner = expand inner :=
      expandFrom_eq (by omega) (Nat.le_refl _)
    rw [grouped_of_none hitems, hinner]
  | some items =>
    have hall : ∀ item ∈ items, expandFrom ts.length item = expand item := by
      intro item hitem
      rcases short_or_plain hitems hitem with hshort | hplain
      · exact expandFrom_eq (by omega) (Nat.le_refl _)
      · rw [expandFrom_of_not_mem hplain, expand_of_not_mem hplain]
    dsimp only
    rw [grouped_of_some hitems, List.flatMap_def, List.flatMap_def, List.map_congr_left hall]

theorem expand_before (h : braces.left ∉ before) (ts : List Tok) :
    expand (before ++ ts) = (expand ts).map (chars before ++ ·) := by
  induction before with
  | nil => simp
  | cons t before ih =>
    simp only [List.mem_cons, not_or] at h
    rw [List.cons_append, expand_cons (Ne.symm h.1), ih h.2, List.map_map]
    rfl

/-- What stands before the end of a balanced list and what stands behind it are expanded
    apart. -/
theorem expand_append (h : Balanced braces ts) (more : List Tok) :
    expand (ts ++ more) = product (expand ts) (expand more) := by
  induction h with
  | nil => simp [product_singleton]
  | @plain t ts hl hr _ ih =>
    rw [List.cons_append, expand_cons hl, expand_cons hl, ih]
    exact (product_map_append _ _ [t.1]).symm
  | @group inner ts hinner _ _ ih =>
    rw [List.cons_append, List.append_assoc, List.cons_append,
      expand_group (closeOf_balanced hinner _), expand_group (closeOf_balanced hinner _), ih,
      product_assoc]

theorem balanced_of_mem_groupItems (hinner : Balanced braces inner)
    (h : groupItems inner = some items) (hitem : item ∈ items) : Balanced braces item := by
  rcases mem_groupItems h hitem with ⟨r, text, htext, rfl⟩ | hpiece
  · exact balanced_of_not_mem (not_mem_active (not_mem_texts htext (by decide) (by decide)))
      (not_mem_active (not_mem_texts htext (by decide) (by decide)))
  · exact balanced_of_mem_pieces hinner item hpiece

/-- **The first group of a word**: its items, one after the other, each put where the group
    stands. -/
theorem expand_first (hbefore : braces.left ∉ before)
    (hclose : closeOf braces 0 ts = some (inner, behind)) (h : groupItems inner = some items) :
    expand (before ++ braces.left :: ts) =
      items.flatMap fun item => expand (before ++ (item ++ behind)) := by
  have hitem : ∀ item ∈ items, expand (before ++ (item ++ behind)) =
      (product (expand item) (expand behind)).map (chars before ++ ·) := by
    intro item hmem
    rw [expand_before hbefore,
      expand_append (balanced_of_mem_groupItems (balanced_of_closeOf hclose) h hmem)]
  rw [expand_before hbefore, expand_group hclose, grouped_of_some h, List.flatMap_def,
    List.flatMap_def, List.map_congr_left hitem, ← List.flatMap_def, ← List.flatMap_def]
  simp [product, List.flatMap_assoc, List.map_flatMap]

/-! ## 6. Words by their groups -/

/-- Induction over the pairs of a word: a pair that is a group is followed into its items, one
    that is none into its inside. -/
theorem word_induction {P : List Tok → Prop} (plain : ∀ ts, braces.left ∉ ts → P ts)
    (cons : ∀ t ts, t ≠ braces.left → P ts → P (t :: ts))
    (single : ∀ ts, closeOf braces 0 ts = none → P ts → P (braces.left :: ts))
    (group : ∀ inner behind items, Balanced braces inner → groupItems inner = some items →
      (∀ item ∈ items, P item) → P behind → P (braces.left :: (inner ++ braces.right :: behind)))
    (pair : ∀ inner behind, Balanced braces inner → groupItems inner = none → P inner →
      P behind → P (braces.left :: (inner ++ braces.right :: behind)))
    (ts : List Tok) : P ts := by
  induction hn : ts.length using Nat.strong_induction_on generalizing ts with
  | _ n ih =>
  cases ts with
  | nil => exact plain [] (by simp)
  | cons t ts =>
    rw [List.length_cons] at hn
    by_cases ht : t = braces.left
    · subst ht
      cases hclose : closeOf braces 0 ts with
      | none => exact single ts hclose (ih ts.length (by omega) ts rfl)
      | some e =>
        rcases e with ⟨inner, behind⟩
        have hinner := balanced_of_closeOf hclose
        obtain rfl := closeOf_split hclose
        rw [List.length_append, List.length_cons] at hn
        have hbehind := ih behind.length (by omega) behind rfl
        cases hitems : groupItems inner with
        | none => exact pair inner behind hinner hitems (ih inner.length (by omega) inner rfl) hbehind
        | some items =>
          refine group inner behind items hinner hitems ?_ hbehind
          intro item hitem
          rcases short_or_plain hitems hitem with hshort | hplain
          · exact ih item.length (by omega) item rfl
          · exact plain item hplain
    · exact cons t ts ht (ih ts.length (by omega) ts rfl)

theorem texts_ne_nil (r : BraceRange) : r.texts ≠ [] := by
  simp only [BraceRange.texts, BraceRange.numbers, ne_eq, List.map_eq_nil_iff, List.range_eq_nil]
  exact Nat.succ_ne_zero _

theorem groupItems_ne_nil (h : groupItems inner = some items) : items ≠ [] := by
  unfold groupItems at h
  split at h
  · next r _ =>
    cases h
    simpa using texts_ne_nil r
  · dsimp only at h
    split at h
    · cases h
      exact pieces_ne_nil 0 inner
    · cases h

/-- Every word stands for something. -/
theorem expand_ne_nil (ts : List Tok) : expand ts ≠ [] := by
  have hproduct : ∀ {us vs : List (List Char)}, us ≠ [] → vs ≠ [] → product us vs ≠ [] := by
    intro us vs hus hvs
    rw [← List.length_pos_iff, length_product]
    exact Nat.mul_pos (List.length_pos_iff.mpr hus) (List.length_pos_iff.mpr hvs)
  induction ts using word_induction with
  | plain ts h => simp [expand_of_not_mem h]
  | cons t ts ht ih => simpa [expand_cons ht] using ih
  | single ts h ih => simpa [expand_open h] using ih
  | group inner behind items hinner hitems ihitems ih =>
    rw [expand_group (closeOf_balanced hinner behind), grouped_of_some hitems]
    refine hproduct ?_ ih
    rcases List.exists_mem_of_ne_nil items (groupItems_ne_nil hitems) with ⟨item, hitem⟩
    intro hnil
    exact ihitems item hitem (List.flatMap_eq_nil_iff.mp hnil item hitem)
  | pair inner behind hinner hitems ihinner ih =>
    rw [expand_group (closeOf_balanced hinner behind), grouped_of_none hitems]
    exact hproduct (by simpa using ihinner) ih

theorem hasGroup_cons (ht : t ≠ braces.left) : HasGroup (t :: ts) ↔ HasGroup ts := by
  simp only [HasGroup, pairIn_cons_of_ne ht]

theorem hasGroup_open (h : closeOf braces 0 ts = none) :
    HasGroup (braces.left :: ts) ↔ HasGroup ts := by
  simp only [HasGroup, pairIn_cons_of_none h]

theorem hasGroup_pair (h : Balanced braces inner) (behind : List Tok) :
    HasGroup (braces.left :: (inner ++ braces.right :: behind)) ↔
      (groupItems inner).isSome = true ∨ HasGroup inner ∨ HasGroup behind := by
  simp only [HasGroup, pairIn_group h, or_and_right, exists_or, exists_eq_left]

theorem not_hasGroup_of_not_mem (h : braces.left ∉ ts) : ¬ HasGroup ts := by
  rintro ⟨inner, hpair, -⟩
  have hnil : PairIn braces [] inner :=
    (pairIn_append_of_not_mem h).mp (by simpa using hpair)
  exact not_pairIn_nil hnil

/-- A word without a group stands for itself. -/
theorem expand_of_not_hasGroup (h : ¬ HasGroup ts) : expand ts = [chars ts] := by
  induction ts using word_induction with
  | plain ts hplain => exact expand_of_not_mem hplain
  | cons t ts ht ih =>
    rw [hasGroup_cons ht] at h
    rw [expand_cons ht, ih h]
    rfl
  | single ts hnone ih =>
    rw [hasGroup_open hnone] at h
    rw [expand_open hnone, ih h]
    rfl
  | group inner behind items hinner hitems _ _ =>
    rw [hasGroup_pair hinner, hitems] at h
    exact absurd (.inl rfl) h
  | pair inner behind hinner hitems ihinner ih =>
    rw [hasGroup_pair hinner, not_or, not_or] at h
    rw [expand_group (closeOf_balanced hinner behind), grouped_of_none hitems, ihinner h.2.1,
      ih h.2.2]
    simp [product, braces]

/-- How many braces are opened in a text. -/
def opened (text : List Char) : Nat := text.count '{'

theorem opened_append (us vs : List Char) : opened (us ++ vs) = opened us + opened vs :=
  List.count_append

theorem opened_cons_of_ne {c : Char} (h : c ≠ '{') (us : List Char) :
    opened (c :: us) = opened us := by
  simp [opened, h]

theorem opened_open (us : List Char) : opened ('{' :: us) = opened us + 1 := by
  simp [opened]

theorem opened_pair (inner behind : List Tok) :
    opened (chars (braces.left :: (inner ++ braces.right :: behind))) =
      opened (chars inner) + opened (chars behind) + 1 := by
  have hright : braces.right.1 ≠ '{' := by decide
  have hleft : braces.left.1 = '{' := rfl
  rw [chars_cons, chars_append, chars_cons, hleft, opened_open, opened_append,
    opened_cons_of_ne hright]

theorem opened_item (h : groupItems inner = some items) (hitem : item ∈ items) :
    opened (chars item) ≤ opened (chars inner) := by
  rcases mem_groupItems h hitem with ⟨r, text, htext, rfl⟩ | hpiece
  · rw [chars_active, opened, List.count_eq_zero.mpr (not_mem_texts htext (by decide) (by decide))]
    exact Nat.zero_le _
  · exact ((infix_of_mem_pieces hpiece).sublist.map Prod.fst).count_le '{'

/-- **No text that a word stands for opens more braces than the word, and it opens fewer where
    the word has a group.** -/
theorem opened_expand (ts : List Tok) : ∀ text ∈ expand ts,
    opened text ≤ opened (chars ts) ∧ (HasGroup ts → opened text < opened (chars ts)) := by
  induction ts using word_induction with
  | plain ts h =>
    intro text htext
    rw [expand_of_not_mem h, List.mem_singleton] at htext
    rw [htext]
    exact ⟨Nat.le_refl _, fun hgroup => absurd hgroup (not_hasGroup_of_not_mem h)⟩
  | cons t ts ht ih =>
    intro text htext
    rw [expand_cons ht, List.mem_map] at htext
    rcases htext with ⟨u, hu, rfl⟩
    have h := ih u hu
    rw [hasGroup_cons ht, chars_cons, ← List.singleton_append, opened_append,
      ← List.singleton_append (l := chars ts), opened_append]
    exact ⟨by omega, fun hgroup => by have := h.2 hgroup; omega⟩
  | single ts hnone ih =>
    intro text htext
    rw [expand_open hnone, List.mem_map] at htext
    rcases htext with ⟨u, hu, rfl⟩
    have h := ih u hu
    have hword : opened (chars (braces.left :: ts)) = opened (chars ts) + 1 := opened_open _
    rw [hasGroup_open hnone, hword, opened_open]
    exact ⟨by omega, fun hgroup => by have := h.2 hgroup; omega⟩
  | group inner behind items hinner hitems ihitems ih =>
    intro text htext
    rw [expand_group (closeOf_balanced hinner behind), grouped_of_some hitems, mem_product] at htext
    rcases htext with ⟨u, hu, v, hv, rfl⟩
    rcases List.mem_flatMap.mp hu with ⟨item, hitem, hu⟩
    have hitemle := (ihitems item hitem u hu).1
    have hinnerle := opened_item hitems hitem
    have hv := (ih v hv).1
    rw [opened_pair, opened_append]
    exact ⟨by omega, fun _ => by omega⟩
  | pair inner behind hinner hitems ihinner ih =>
    intro text htext
    rw [expand_group (closeOf_balanced hinner behind), grouped_of_none hitems, mem_product] at htext
    rcases htext with ⟨u, hu, v, hv, rfl⟩
    rcases List.mem_map.mp hu with ⟨w, hw, rfl⟩
    have hinner' := ihinner w hw
    have hbehind := ih v hv
    have htext : opened ('{' :: (w ++ ['}']) ++ v) = opened w + opened v + 1 := by
      rw [List.cons_append, opened_open, opened_append, opened_append]
      rfl
    rw [opened_pair, htext, hasGroup_pair hinner, hitems]
    refine ⟨by omega, ?_⟩
    rintro (hsome | hgroup | hgroup)
    · exact absurd hsome (by decide)
    · have := hinner'.2 hgroup
      omega
    · have := hbehind.2 hgroup
      omega

/-- A word with a group does not stand for itself. -/
theorem expand_ne_self (h : HasGroup ts) : expand ts ≠ [chars ts] := by
  intro hself
  have hmem : chars ts ∈ expand ts := by simp [hself]
  exact absurd ((opened_expand ts (chars ts) hmem).2 h) (Nat.lt_irrefl _)

end Wasmsh.BraceGroups

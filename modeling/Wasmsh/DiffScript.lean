import Mathlib.Data.List.Infix
import Wasmsh.DiffVerdict

/-!
# The edit script of `diff`

`compute_edit_script` with the table it fills and the loops that walk through it.  A script is
read as a program that turns the old lines into the new ones, and no such program keeps more
lines.
-/

namespace Wasmsh.Diff

open Lcs

/-! ## 1. The table -/

/-- A row of `dp`, right to left, from the row below it. -/
def dpRow (a : Line) : List Line → List Nat → List Nat
  | [], _ => [0]
  | b :: bs, below =>
    let right := dpRow a bs below.tail
    (if a = b then below.tail.headD 0 + 1 else max (below.headD 0) (right.headD 0)) :: right

/-- The rows of `dp`, from the last one up. -/
def dpTable (new : List Line) : List Line → List (List Nat)
  | [] => [List.replicate (new.length + 1) 0]
  | a :: as => dpRow a new ((dpTable new as).headD []) :: dpTable new as

/-- `dp[i][j]`. -/
def dpEntry (dp : List (List Nat)) (i j : Nat) : Nat := (dp[i]?.bind (·[j]?)).getD 0

variable (old new : List Line)

/-- The three loops after the table, which need a turn for each line left. -/
def backtrack (dp : List (List Nat)) : Nat → Nat → Nat → List Edit
  | 0, _, _ => []
  | turns + 1, i, j =>
    match old[i]?, new[j]? with
    | some a, some b =>
      if a = b then (.equal, i, j) :: backtrack dp turns (i + 1) (j + 1)
      else if dpEntry dp i (j + 1) ≤ dpEntry dp (i + 1) j then
        (.delete, i, j) :: backtrack dp turns (i + 1) j
      else (.insert, i, j) :: backtrack dp turns i (j + 1)
    | some _, none => (.delete, i, j) :: backtrack dp turns (i + 1) j
    | none, some _ => (.insert, i, j) :: backtrack dp turns i (j + 1)
    | none, none => []

/-- `compute_edit_script`. -/
def tableScript : List Edit :=
  backtrack old new (dpTable new old) (old.length + new.length) 0 0

/-! ## 2. What a script does -/

/-- The lines that a script makes of the old ones from `i` on, as lines from `j` on of the new
    ones: it names all of them in order, and equal lines where it keeps one. -/
def applyScript : List Edit → Nat → Nat → Option (List Line)
  | [], i, _ => if i = old.length then some [] else none
  | (.equal, oi, ni) :: es, i, j =>
    if oi = i ∧ ni = j ∧ old[i]? = new[j]? then
      old[i]?.bind fun l => (applyScript es (i + 1) (j + 1)).map (l :: ·)
    else none
  | (.delete, oi, _) :: es, i, j =>
    if oi = i ∧ i < old.length then applyScript es (i + 1) j else none
  | (.insert, _, ni) :: es, i, j =>
    if ni = j then new[j]?.bind fun l => (applyScript es i (j + 1)).map (l :: ·) else none

def equalCount (es : List Edit) : Nat := es.countP (·.1 = .equal)

/-- The script makes the new lines, and no script that does has more equal lines.  Within the
    limit the table fits its words. -/
structure Minimal (es : List Edit) : Prop where
  transforms : applyScript old new es 0 0 = some new
  most : ∀ fs, applyScript old new fs 0 0 = some new → equalCount fs ≤ equalCount es
  fits : old.length * new.length ≤ maxDpCells → ∀ row ∈ dpTable new old, ∀ n ∈ row, n < 2 ^ 32

/-! ## 3. The table holds the lengths -/

variable {old new}

theorem dpRow_eq (a : Line) (as bs : List Line) :
    dpRow a bs (bs.tails.map (lcs as)) = bs.tails.map (lcs (a :: as)) := by
  induction bs with
  | nil => simp [dpRow, lcs_nil_right]
  | cons b bs ih =>
    have hhead : ∀ as : List Line, ((bs.tails.map (lcs as)).headD 0) = lcs as bs := by
      intro as
      cases bs <;> rfl
    simp only [dpRow, List.tails_cons, List.map_cons, List.tail_cons, List.headD_cons, ih, hhead]
    split
    case isTrue hab => rw [hab, lcs_cons_self]
    case isFalse hab => rw [lcs_cons_cons hab]

theorem dpTable_eq (old new : List Line) :
    dpTable new old = old.tails.map fun as => new.tails.map (lcs as) := by
  induction old with
  | nil => simp [dpTable, lcs]
  | cons a as ih =>
    have hhead : (dpTable new as).headD [] = new.tails.map (lcs as) := by
      rw [ih]
      cases as <;> rfl
    rw [dpTable, hhead, dpRow_eq, ih]
    rfl

theorem dpEntry_eq {i j : Nat} (hi : i ≤ old.length) (hj : j ≤ new.length) :
    dpEntry (dpTable new old) i j = lcs (old.drop i) (new.drop j) := by
  have hrow : i < old.tails.length := by rw [List.length_tails]; omega
  have hcolumn : j < new.tails.length := by rw [List.length_tails]; omega
  rw [dpEntry, dpTable_eq, List.getElem?_map, List.getElem?_eq_getElem hrow, List.getElem_tails,
    Option.map_some, Option.bind_some, List.getElem?_map, List.getElem?_eq_getElem hcolumn,
    List.getElem_tails]
  rfl

/-- An entry is at most the smaller number of lines. -/
theorem dpTable_fits (h : old.length * new.length ≤ maxDpCells) :
    ∀ row ∈ dpTable new old, ∀ n ∈ row, n < 2 ^ 32 := by
  rw [dpTable_eq]
  intro row hrow n hn
  obtain ⟨as, ha, rfl⟩ := List.mem_map.mp hrow
  obtain ⟨bs, hb, rfl⟩ := List.mem_map.mp hn
  obtain ⟨zs, hza, hzb, hlen⟩ := exists_common as bs
  have hold : zs.length ≤ old.length :=
    (hza.trans ((List.mem_tails as old).mp ha).sublist).length_le
  have hnew : zs.length ≤ new.length :=
    (hzb.trans ((List.mem_tails bs new).mp hb).sublist).length_le
  have hsquare : zs.length * zs.length ≤ maxDpCells := (Nat.mul_le_mul hold hnew).trans h
  rw [← hlen]
  by_contra hlarge
  have hmul := Nat.mul_le_mul (Nat.le_of_not_lt hlarge) (Nat.le_of_not_lt hlarge)
  unfold maxDpCells at hsquare
  omega

/-! ## 4. The script -/

/-- What holds of the script from `i` and `j` on; it is the one that the verdict rests on. -/
structure Right (old new : List Line) (i j : Nat) (es : List Edit) : Prop where
  applies : applyScript old new es i j = some (new.drop j)
  counts : equalCount es = lcs (old.drop i) (new.drop j)
  verdict : es = editScript (old.drop i) i (new.drop j) j

theorem drop_cons {ls : List Line} {i : Nat} (h : i < ls.length) :
    ∃ l, ls[i]? = some l ∧ ls.drop i = l :: ls.drop (i + 1) :=
  ⟨ls[i], List.getElem?_eq_getElem h, List.drop_eq_getElem_cons h⟩

section Steps

variable {i j : Nat} {es : List Edit}

theorem Right.delete (hi : i < old.length) (h : Right old new (i + 1) j es)
    (hcount : lcs (old.drop i) (new.drop j) = lcs (old.drop (i + 1)) (new.drop j))
    (hscript : editScript (old.drop i) i (new.drop j) j =
      (.delete, i, j) :: editScript (old.drop (i + 1)) (i + 1) (new.drop j) j) :
    Right old new i j ((.delete, i, j) :: es) where
  applies := by simp [applyScript, hi, h.applies]
  counts := by simpa [equalCount, hcount] using h.counts
  verdict := by rw [hscript, ← h.verdict]

theorem Right.insert (hj : j < new.length) (h : Right old new i (j + 1) es)
    (hcount : lcs (old.drop i) (new.drop j) = lcs (old.drop i) (new.drop (j + 1)))
    (hscript : editScript (old.drop i) i (new.drop j) j =
      (.insert, i, j) :: editScript (old.drop i) i (new.drop (j + 1)) (j + 1)) :
    Right old new i j ((.insert, i, j) :: es) where
  applies := by
    obtain ⟨b, hget, hdrop⟩ := drop_cons hj
    simp [applyScript, hget, h.applies, hdrop]
  counts := by simpa [equalCount, hcount] using h.counts
  verdict := by rw [hscript, ← h.verdict]

theorem Right.equal {l : Line} (hold : old[i]? = some l) (hnew : new[j]? = some l)
    (hdropa : old.drop i = l :: old.drop (i + 1)) (hdropb : new.drop j = l :: new.drop (j + 1))
    (h : Right old new (i + 1) (j + 1) es) : Right old new i j ((.equal, i, j) :: es) where
  applies := by simp [applyScript, hold, hnew, h.applies, hdropb]
  counts := by
    rw [hdropa, hdropb, lcs_cons_self, ← h.counts]
    simp [equalCount]
  verdict := by rw [hdropa, hdropb, editScript_cons_self, ← h.verdict]

end Steps

theorem backtrack_right {turns i j : Nat} (hi : i ≤ old.length) (hj : j ≤ new.length)
    (hturns : old.length + new.length ≤ turns + i + j) :
    Right old new i j (backtrack old new (dpTable new old) turns i j) := by
  have hends : Right old new old.length new.length [] := by
    constructor <;> simp [applyScript, equalCount, editScript, lcs]
  induction turns generalizing i j with
  | zero =>
    obtain rfl : i = old.length := by omega
    obtain rfl : j = new.length := by omega
    exact hends
  | succ turns ih =>
    rw [backtrack]
    rcases hi.eq_or_lt with rfl | hlti <;> rcases hj.eq_or_lt with rfl | hltj
    · simpa using hends
    · obtain ⟨b, hgetb, hdropb⟩ := drop_cons hltj
      have hright := (ih hi hltj (by omega)).insert hltj (by simp [lcs])
        (by simp [hdropb, editScript, List.range_succ_eq_map, Nat.add_assoc, Nat.add_comm 1])
      simpa [hgetb] using hright
    · obtain ⟨a, hgeta, hdropa⟩ := drop_cons hlti
      have hright := (ih hlti hj (by omega)).delete hlti (by simp [lcs_nil_right])
        (by rw [hdropa]
            cases old.drop (i + 1) <;>
              simp [editScript, scriptRow, List.range_succ_eq_map, Nat.add_assoc, Nat.add_comm 1])
      simpa [hgeta] using hright
    · obtain ⟨a, hgeta, hdropa⟩ := drop_cons hlti
      obtain ⟨b, hgetb, hdropb⟩ := drop_cons hltj
      simp only [hgeta, hgetb, dpEntry_eq hi hltj, dpEntry_eq hlti hj]
      by_cases hab : a = b
      · subst hab
        rw [if_pos rfl]
        exact (ih hlti hltj (by omega)).equal hgeta hgetb hdropa hdropb
      rw [if_neg hab]
      rcases Nat.lt_or_ge (lcs (old.drop (i + 1)) (new.drop j))
        (lcs (old.drop i) (new.drop (j + 1))) with hlt | hle
      · rw [if_neg (Nat.not_le.mpr hlt)]
        rw [hdropa, hdropb] at hlt
        exact (ih hi hltj (by omega)).insert hltj
          (by rw [hdropa, hdropb, lcs_cons_cons hab, Nat.max_eq_right hlt.le])
          (by rw [hdropa, hdropb, editScript_insert hab i j hlt])
      · rw [if_pos hle]
        rw [hdropa, hdropb] at hle
        exact (ih hlti hj (by omega)).delete hlti
          (by rw [hdropa, hdropb, lcs_cons_cons hab, Nat.max_eq_left hle])
          (by rw [hdropa, hdropb, editScript_delete hab i j hle])

/-- The verdict rests on the script of the table. -/
theorem tableScript_right (old new : List Line) :
    Right old new 0 0 (tableScript old new) :=
  backtrack_right (Nat.zero_le _) (Nat.zero_le _) (Nat.le_refl _)

/-! ## 5. It is minimal -/

/-- The lines that any script keeps are a common subsequence. -/
theorem kept_common {es : List Edit} {i j : Nat} {out : List Line}
    (h : applyScript old new es i j = some out) :
    ∃ zs : List Line, zs.Sublist (old.drop i) ∧ zs.Sublist out ∧ zs.length = equalCount es := by
  induction es generalizing i j out with
  | nil => exact ⟨[], List.nil_sublist _, List.nil_sublist _, rfl⟩
  | cons e es ih =>
    obtain ⟨op, oi, ni⟩ := e
    cases op <;> rw [applyScript] at h <;> split at h <;> try cases h
    case equal.isTrue =>
      obtain ⟨l, hl, hrest⟩ := Option.bind_eq_some_iff.mp h
      obtain ⟨out, hout, rfl⟩ := Option.map_eq_some_iff.mp hrest
      obtain ⟨zs, hold, hnew, hlen⟩ := ih hout
      obtain ⟨hlt, rfl⟩ := List.getElem?_eq_some_iff.mp hl
      refine ⟨old[i] :: zs, ?_, hnew.cons_cons _, by simp [equalCount, hlen]⟩
      rw [List.drop_eq_getElem_cons hlt]
      exact hold.cons_cons _
    case delete.isTrue =>
      obtain ⟨zs, hold, hnew, hlen⟩ := ih h
      exact ⟨zs, hold.trans (List.drop_sublist_drop_left old (Nat.le_succ i)), hnew,
        by simpa [equalCount] using hlen⟩
    case insert.isTrue =>
      obtain ⟨l, -, hrest⟩ := Option.bind_eq_some_iff.mp h
      obtain ⟨out, hout, rfl⟩ := Option.map_eq_some_iff.mp hrest
      obtain ⟨zs, hold, hnew, hlen⟩ := ih hout
      exact ⟨zs, hold, hnew.cons l, by simpa [equalCount] using hlen⟩

theorem tableScript_minimal (old new : List Line) : Minimal old new (tableScript old new) where
  transforms := (tableScript_right old new).applies
  most := by
    intro fs hfs
    obtain ⟨zs, hold, hnew, hlen⟩ := kept_common hfs
    have hcount : equalCount (tableScript old new) = lcs old new :=
      (tableScript_right old new).counts
    rw [hcount, ← hlen]
    exact length_le hold hnew
  fits := dpTable_fits

end Wasmsh.Diff

import Wasmsh.CommandTemplates
import Wasmsh.Library.Lcs
import Wasmsh.Library.Lines
import Wasmsh.Library.LossyUtf8

/-!
# The verdict of `diff`

`util_diff` of `wasmsh-utils/src/diff_ops.rs` on the contents of two files, with any flags:
`diff_texts`, the edit script, the filter of blank lines and the hunks.  The three formatters
only write a text from the hunks and are a parameter.  A panic is a missing result.
-/

namespace Wasmsh.Diff

open Lcs Lines LossyUtf8

abbrev Line := List Char

/-! ## 1. The edit script -/

inductive EditOp where
  | equal
  | delete
  | insert
  deriving DecidableEq, Repr

/-- `(EditOp, old_idx, new_idx)`. -/
abbrev Edit := EditOp × Nat × Nat

def scriptRow (a : Line) (as : List Line) (i : Nat) (below : List Line → Nat → List Edit) :
    List Line → Nat → List Edit
  | [], j => (List.range (as.length + 1)).map fun k => (.delete, i + k, j)
  | b :: bs, j =>
    if a = b then (.equal, i, j) :: below bs (j + 1)
    else if lcs (a :: as) bs ≤ lcs as (b :: bs) then (.delete, i, j) :: below (b :: bs) j
    else (.insert, i, j) :: scriptRow a as i below bs (j + 1)

/-- The backtracking of `compute_edit_script`, on the lines from `i` and from `j` on. -/
def editScript : List Line → Nat → List Line → Nat → List Edit
  | [], i => fun bs j => (List.range bs.length).map fun k => (.insert, i, j + k)
  | a :: as, i => scriptRow a as i (editScript as (i + 1))

def computeEditScript (old new : List Line) : List Edit := editScript old 0 new 0

/-- `is_blank`. -/
def isBlank (l : Line) : Bool := l.all isWhitespace

/-- `strip_all_space`. -/
def stripAllSpace (l : Line) : Line := l.filter (!isWhitespace ·)

/-- One turn of `filter_blank_lines`. -/
def filterBlankLine (old new : List Line) : Edit → Edit
  | (.delete, oi, ni) => if isBlank (old[oi]?.getD []) then (.equal, oi, ni) else (.delete, oi, ni)
  | (.insert, oi, ni) => if isBlank (new[ni]?.getD []) then (.equal, oi, ni) else (.insert, oi, ni)
  | e => e

/-! ## 2. Hunks -/

structure Hunk where
  oldStart : Nat
  oldCount : Nat
  newStart : Nat
  newCount : Nat
  lines : List (EditOp × Line)
  deriving DecidableEq, Repr

/-- The line of an edit; the indices panic out of range. -/
def hunkLine (old new : List Line) : Edit → Option (EditOp × Line)
  | (.equal, oi, _) => old[oi]?.map (.equal, ·)
  | (.delete, oi, _) => old[oi]?.map (.delete, ·)
  | (.insert, _, ni) => new[ni]?.map (.insert, ·)

def buildHunk (ops : List Edit) (old new : List Line) : Option Hunk :=
  (ops.mapM (hunkLine old new)).map fun lines =>
    { oldStart := (ops.head?.elim 0 (·.2.1)) + 1
      oldCount := lines.countP (·.1 ≠ .insert)
      newStart := (ops.head?.elim 0 (·.2.2)) + 1
      newCount := lines.countP (·.1 ≠ .delete)
      lines := lines }

def changeIndices (ops : List Edit) : List Nat :=
  (ops.zipIdx.filter (·.1.1 ≠ .equal)).map (·.2)

/-- The first and the last change of each group. -/
def changeGroups (ctx grpStart grpEnd : Nat) : List Nat → List (Nat × Nat)
  | [] => [(grpStart, grpEnd)]
  | ci :: cis =>
    if ci ≤ grpEnd + 2 * ctx + 1 then changeGroups ctx grpStart ci cis
    else (grpStart, grpEnd) :: changeGroups ctx ci ci cis

def groupHunks (ops : List Edit) (old new : List Line) (ctx : Nat) : Option (List Hunk) :=
  match changeIndices ops with
  | [] => some []
  | ci :: cis => (changeGroups ctx ci ci cis).mapM fun g =>
    buildHunk ((ops.take (min (g.2 + ctx + 1) ops.length)).drop (g.1 - ctx)) old new

/-! ## 3. `diff_texts` and `util_diff` -/

structure DiffFlags where
  unified : Bool := false
  contextFmt : Bool := false
  brief : Bool := false
  ignoreBlankLines : Bool := false
  ignoreAllSpace : Bool := false
  recursive : Bool := false
  newFile : Bool := false
  contextLines : Nat := 3

/-- `MAX_DP_CELLS`. -/
def maxDpCells : Nat := 10000000

/-- `Files {old_label} and {new_label} differ`. -/
def differMessage (oldLabel newLabel : List Char) : List Char :=
  "Files ".toList ++ oldLabel ++ " and ".toList ++ newLabel ++ " differ\n".toList

/-- `build_comparison_lines`. -/
def comparisonLines (flags : DiffFlags) (lines : List Line) : List Line :=
  if flags.ignoreAllSpace then lines.map stripAllSpace else lines

def diffOps (flags : DiffFlags) (old new : List Line) : List Edit :=
  let ops := computeEditScript (comparisonLines flags old) (comparisonLines flags new)
  if flags.ignoreBlankLines then ops.map (filterBlankLine old new) else ops

variable (format : DiffFlags → List Char → List Char → List Hunk → List Char)

def diffTexts (old new : List Line) (oldLabel newLabel : List Char) (flags : DiffFlags) :
    Option (List Char × Bool) :=
  if maxDpCells < old.length * new.length then some (differMessage oldLabel newLabel, true)
  else if (diffOps flags old new).all (·.1 = .equal) then some ([], false)
  else if flags.brief then some (differMessage oldLabel newLabel, true)
  else (groupHunks (diffOps flags old new) old new flags.contextLines).map fun hunks =>
    (format flags oldLabel newLabel hunks, true)

/-- `String::from_utf8_lossy`, then `str::lines`. -/
def textLines (bytes : List UInt8) : List Line := Wasmsh.linesFrom [] (decode bytes)

/-- The output and the exit status, for the contents of the two files. -/
def utilDiff (flags : DiffFlags) (oldLabel newLabel : List Char) (old new : List UInt8) :
    Option (List Char × Nat) :=
  (diffTexts format (textLines old) (textLines new) oldLabel newLabel flags).map fun r =>
    (r.1, if r.2 then 1 else 0)

/-! ## 4. What the verdict says of the bytes -/

/-- The lines of a byte string, without their newlines. -/
def byteLines (bytes : List UInt8) : List (List UInt8) := Lines.lines 10 bytes

def nonBlank (ls : List Line) : List Line := ls.filter (!isBlank ·)

def nonBlankBytes (bytes : List UInt8) : List (List UInt8) :=
  (byteLines bytes).filter fun l => !isBlank (decode l)

/-- The white space characters. -/
def whiteSpace : List Char :=
  ([9, 10, 11, 12, 13, 0x20, 0x85, 0xA0, 0x1680, 0x2000, 0x2001, 0x2002, 0x2003, 0x2004, 0x2005,
    0x2006, 0x2007, 0x2008, 0x2009, 0x200A, 0x2028, 0x2029, 0x202F, 0x205F, 0x3000] :
      List Nat).map Char.ofNat

/-- Bytes without the encodings of white space; `skip` counts what is left of one. -/
def withoutSpace : Nat → List UInt8 → List UInt8
  | _, [] => []
  | skip + 1, _ :: bs => withoutSpace skip bs
  | 0, b :: bs =>
    match whiteSpace.find? fun c => (String.utf8EncodeChar c).isPrefixOf (b :: bs) with
    | some c => withoutSpace ((String.utf8EncodeChar c).length - 1) bs
    | none => b :: withoutSpace 0 bs

def spacelessBytes (bytes : List UInt8) : List (List UInt8) :=
  (byteLines bytes).map (withoutSpace 0)

variable (flags : DiffFlags) (oldLabel newLabel : List Char) (old new : List UInt8)

def ExitsZero : Prop := ∃ out, utilDiff format flags oldLabel newLabel old new = some (out, 0)

def ExitsOne : Prop := ∃ out, utilDiff format flags oldLabel newLabel old new = some (out, 1)

/-- Without `-w` and `-B`, status 0 and no output for equal bytes and status 1 for others; with
    one of them, status 0 exactly for files that agree up to white space or blank lines. -/
structure Exact : Prop where
  plain : flags.ignoreAllSpace = false → flags.ignoreBlankLines = false →
    (utilDiff format flags oldLabel newLabel old new = some ([], 0) ↔ old = new) ∧
      (old ≠ new → ExitsOne format flags oldLabel newLabel old new)
  space : flags.ignoreAllSpace = true → flags.ignoreBlankLines = false →
    (ExitsZero format flags oldLabel newLabel old new ↔ spacelessBytes old = spacelessBytes new)
  blank : flags.ignoreAllSpace = false → flags.ignoreBlankLines = true →
    (ExitsZero format flags oldLabel newLabel old new ↔ nonBlankBytes old = nonBlankBytes new)

/-- The lines are few enough to be compared. -/
def Compared : Prop := (textLines old).length * (textLines new).length ≤ maxDpCells

/-- Every non-blank line is in the earliest longest common subsequence. -/
def KeepsText (old new : List Line) : Prop :=
  nonBlank (earliest old new) = nonBlank old ∧ nonBlank (earliest old new) = nonBlank new

/-- Where the bytes agree the lines are compared and agree, where they do not the lines are too
    many or differ. -/
structure Faithful : Prop where
  plain : flags.ignoreAllSpace = false → flags.ignoreBlankLines = false →
    (old = new ↔ Compared old new ∧ textLines old = textLines new)
  space : flags.ignoreAllSpace = true → flags.ignoreBlankLines = false →
    (spacelessBytes old = spacelessBytes new ↔
      Compared old new ∧ (textLines old).map stripAllSpace = (textLines new).map stripAllSpace)
  blank : flags.ignoreAllSpace = false → flags.ignoreBlankLines = true →
    (nonBlankBytes old = nonBlankBytes new ↔
      Compared old new ∧ KeepsText (textLines old) (textLines new))

/-! ## 5. The changes of a script -/

/-- An edit of two lists that names lines of them. -/
def InBounds (m n : Nat) : Edit → Prop
  | (.equal, oi, ni) => oi < m ∧ ni < n
  | (.delete, oi, _) => oi < m
  | (.insert, _, ni) => ni < n

variable (as bs : List Line)

theorem editScript_cons_self (a : Line) (i j : Nat) :
    editScript (a :: as) i (a :: bs) j = (.equal, i, j) :: editScript as (i + 1) bs (j + 1) := by
  rw [editScript, scriptRow, if_pos rfl]

theorem editScript_delete {a b : Line} (h : a ≠ b) (i j : Nat) {as bs : List Line}
    (hle : lcs (a :: as) bs ≤ lcs as (b :: bs)) :
    editScript (a :: as) i (b :: bs) j =
      (.delete, i, j) :: editScript as (i + 1) (b :: bs) j := by
  rw [editScript, scriptRow, if_neg h, if_pos hle]

theorem editScript_insert {a b : Line} (h : a ≠ b) (i j : Nat) {as bs : List Line}
    (hlt : lcs as (b :: bs) < lcs (a :: as) bs) :
    editScript (a :: as) i (b :: bs) j =
      (.insert, i, j) :: editScript (a :: as) i bs (j + 1) := by
  rw [editScript, scriptRow, if_neg h, if_neg (Nat.not_le.mpr hlt)]

/-- The shapes of two lists that the script tells apart. -/
theorem script_cases {motive : List Line → List Line → Prop}
    (inserted : ∀ bs, motive [] bs) (deleted : ∀ a as, motive (a :: as) [])
    (equal : ∀ a as bs, motive as bs → motive (a :: as) (a :: bs))
    (delete : ∀ a b as bs, a ≠ b → lcs (a :: as) bs ≤ lcs as (b :: bs) →
      motive as (b :: bs) → motive (a :: as) (b :: bs))
    (insert : ∀ a b as bs, a ≠ b → lcs as (b :: bs) < lcs (a :: as) bs →
      motive (a :: as) bs → motive (a :: as) (b :: bs)) :
    motive as bs := by
  induction as generalizing bs with
  | nil => exact inserted bs
  | cons a as iha =>
    induction bs with
    | nil => exact deleted a as
    | cons b bs ihb =>
      by_cases h : a = b
      · exact h ▸ equal a as bs (iha bs)
      · rcases Nat.lt_or_ge (lcs as (b :: bs)) (lcs (a :: as) bs) with hlt | hle
        · exact insert a b as bs h hlt ihb
        · exact delete a b as bs h hle (iha (b :: bs))

theorem script_inBounds (i j : Nat) :
    ∀ e ∈ editScript as i bs j, InBounds (i + as.length) (j + bs.length) e := by
  induction as, bs using script_cases generalizing i j with
  | inserted bs =>
    intro e he
    obtain ⟨k, hk, rfl⟩ := List.mem_map.mp he
    exact Nat.add_lt_add_left (List.mem_range.mp hk) j
  | deleted a as =>
    intro e he
    obtain ⟨k, hk, rfl⟩ := List.mem_map.mp he
    exact Nat.add_lt_add_left (List.mem_range.mp hk) i
  | equal a as bs ih =>
    rw [editScript_cons_self, List.forall_mem_cons]
    exact ⟨by simp [InBounds],
      by simpa [Nat.add_assoc, Nat.add_comm 1] using ih (i + 1) (j + 1)⟩
  | delete a b as bs hab hle ih =>
    rw [editScript_delete hab i j hle, List.forall_mem_cons]
    exact ⟨by simp [InBounds], by simpa [Nat.add_assoc, Nat.add_comm 1] using ih (i + 1) j⟩
  | insert a b as bs hab hlt ih =>
    rw [editScript_insert hab i j hlt, List.forall_mem_cons]
    exact ⟨by simp [InBounds], by simpa [Nat.add_assoc, Nat.add_comm 1] using ih i (j + 1)⟩

/-- Only equal lists have a script without changes. -/
theorem script_unchanged (i j : Nat) :
    (editScript as i bs j).all (·.1 = .equal) = true ↔ as = bs := by
  induction as, bs using script_cases generalizing i j with
  | inserted bs => cases bs <;> simp [editScript, List.range_succ]
  | deleted a as => simp [editScript, scriptRow, List.range_succ]
  | equal a as bs ih => simp [editScript_cons_self, ih]
  | delete a b as bs hab hle ih => simp [editScript_delete hab i j hle, hab]
  | insert a b as bs hab hlt ih => simp [editScript_insert hab i j hlt, hab]

/-! ## 6. The filter of blank lines -/

section Blank

variable {as bs}

theorem nonBlank_cons_ne {a : Line} {zs : List Line} (h : isBlank a = false) (hz : zs.Sublist as) :
    nonBlank zs ≠ nonBlank (a :: as) := by
  intro heq
  have hle : (nonBlank zs).length ≤ (nonBlank as).length := (hz.filter _).length_le
  rw [heq] at hle
  simp [nonBlank, h] at hle

theorem keepsText_cons_self (a : Line) : KeepsText (a :: as) (a :: bs) ↔ KeepsText as bs := by
  rw [KeepsText, earliest_cons_self]
  cases h : isBlank a <;> simp [KeepsText, nonBlank, h]

theorem keepsText_delete {a b : Line} (hab : a ≠ b) (hle : lcs (a :: as) bs ≤ lcs as (b :: bs)) :
    KeepsText (a :: as) (b :: bs) ↔ isBlank a = true ∧ KeepsText as (b :: bs) := by
  rw [KeepsText, earliest_pass_left hab hle]
  cases h : isBlank a with
  | false =>
    have hne := nonBlank_cons_ne h (earliest_sublist as (b :: bs)).1
    simp [hne]
  | true => simp [KeepsText, nonBlank, h]

theorem keepsText_insert {a b : Line} (hab : a ≠ b) (hlt : lcs as (b :: bs) < lcs (a :: as) bs) :
    KeepsText (a :: as) (b :: bs) ↔ isBlank b = true ∧ KeepsText (a :: as) bs := by
  rw [KeepsText, earliest_pass_right hab hlt]
  cases h : isBlank b with
  | false =>
    have hne := nonBlank_cons_ne h (earliest_sublist (a :: as) bs).2
    simp [hne]
  | true => simp [KeepsText, nonBlank, h]

/-- The lines from an index on are blank. -/
theorem blank_from {ls : List Line} {j : Nat} (h : ls.drop j = bs) :
    (∀ k < bs.length, isBlank (ls[j + k]?.getD []) = true) ↔ nonBlank bs = [] := by
  have hget : ∀ k, ls[j + k]? = bs[k]? := fun k => by rw [← h, List.getElem?_drop]
  simp only [hget, nonBlank, List.filter_eq_nil_iff, Bool.not_eq_true, Bool.not_eq_false']
  constructor
  · intro hall l hl
    obtain ⟨k, hk, rfl⟩ := List.getElem_of_mem hl
    simpa [hk] using hall k hk
  · intro hall k hk
    simpa [hk] using hall _ (List.getElem_mem hk)

theorem head_from {ls : List Line} {a : Line} {i : Nat} (h : ls.drop i = a :: as) :
    ls[i]?.getD [] = a ∧ ls.drop (i + 1) = as := by
  constructor
  · have hget : (ls.drop i)[0]? = ls[i]? := by rw [List.getElem?_drop, Nat.add_zero]
    rw [← hget, h]
    rfl
  · rw [← List.tail_drop, h]
    rfl

/-- The changes of a script are all blank where the lines it keeps have all the others. -/
theorem script_blank {old new : List Line} {i j : Nat} (hold : old.drop i = as)
    (hnew : new.drop j = bs) :
    ((editScript as i bs j).map (filterBlankLine old new)).all (·.1 = .equal) = true ↔
      KeepsText as bs := by
  induction as, bs using script_cases generalizing i j with
  | inserted bs =>
    have hkeeps : KeepsText [] bs ↔ nonBlank bs = [] := by
      rw [KeepsText, earliest_nil]
      exact ⟨fun h => h.2.symm, fun h => ⟨rfl, h.symm⟩⟩
    rw [hkeeps, ← blank_from hnew, editScript]
    simp only [List.map_map, List.all_map, List.all_eq_true, List.mem_range, Function.comp_apply]
    refine forall₂_congr fun k _ => ?_
    cases h : isBlank (new[j + k]?.getD []) <;> simp [filterBlankLine, h]
  | deleted a as =>
    have hkeeps : KeepsText (a :: as) [] ↔ nonBlank (a :: as) = [] :=
      ⟨fun h => h.1.symm, fun h => ⟨h.symm, rfl⟩⟩
    rw [hkeeps, ← blank_from hold, editScript, scriptRow]
    simp only [List.map_map, List.all_map, List.all_eq_true, List.mem_range, Function.comp_apply]
    refine forall₂_congr fun k _ => ?_
    cases h : isBlank (old[i + k]?.getD []) <;> simp [filterBlankLine, h]
  | equal a as bs ih =>
    rw [editScript_cons_self, List.map_cons, List.all_cons, keepsText_cons_self,
      ← ih (head_from hold).2 (head_from hnew).2]
    simp [filterBlankLine]
  | delete a b as bs hab hle ih =>
    rw [editScript_delete hab i j hle, List.map_cons, List.all_cons, keepsText_delete hab hle,
      ← ih (head_from hold).2 hnew, filterBlankLine, (head_from hold).1]
    cases h : isBlank a <;> simp
  | insert a b as bs hab hlt ih =>
    rw [editScript_insert hab i j hlt, List.map_cons, List.all_cons, keepsText_insert hab hlt,
      ← ih hold (head_from hnew).2, filterBlankLine, (head_from hnew).1]
    cases h : isBlank b <;> simp

end Blank

/-! ## 7. The verdict -/

theorem mapM_some {β γ : Type} {f : β → Option γ} {l : List β} (h : ∀ b ∈ l, (f b).isSome) :
    (l.mapM f).isSome := by
  induction l with
  | nil => rfl
  | cons b l ih =>
    rw [List.forall_mem_cons] at h
    obtain ⟨c, hc⟩ := Option.isSome_iff_exists.mp h.1
    obtain ⟨cs, hcs⟩ := Option.isSome_iff_exists.mp (ih h.2)
    simp [List.mapM_cons, hc, hcs]

/-- Hunks of edits that name lines of the two lists are built. -/
theorem groupHunks_isSome {ops : List Edit} {ls ls' : List Line} (ctx : Nat)
    (h : ∀ e ∈ ops, InBounds ls.length ls'.length e) : (groupHunks ops ls ls' ctx).isSome := by
  rw [groupHunks]
  cases changeIndices ops with
  | nil => rfl
  | cons ci cis =>
    refine mapM_some fun g _ => ?_
    rw [buildHunk, Option.isSome_map]
    refine mapM_some fun e he => ?_
    have hbounds := h e (List.mem_of_mem_take (List.mem_of_mem_drop he))
    obtain ⟨op, oi, ni⟩ := e
    cases op <;> simp_all [hunkLine, InBounds]

section Verdict

variable {format flags oldLabel newLabel old new}

/-- Status 0 comes without output, and exactly where the lines are compared and no change is
    left. -/
theorem utilDiff_zero_iff (out : List Char) :
    utilDiff format flags oldLabel newLabel old new = some (out, 0) ↔
      out = [] ∧ Compared old new ∧
        (diffOps flags (textLines old) (textLines new)).all (·.1 = .equal) = true := by
  rw [utilDiff, diffTexts, Compared]
  split
  case isTrue h =>
    exact ⟨fun hz => absurd (congrArg (Option.map Prod.snd) hz) (by simp),
      fun hz => absurd hz.2.1 (Nat.not_le.mpr h)⟩
  case isFalse h =>
    split
    case isTrue hops =>
      have hle := Nat.le_of_not_lt h
      constructor
      · intro hz
        exact ⟨(congrArg Prod.fst (Option.some.inj hz)).symm, hle, hops⟩
      · rintro ⟨rfl, -⟩
        rfl
    case isFalse hops =>
      split
      · simp [hops]
      · simp [hops]

theorem exitsZero_iff :
    ExitsZero format flags oldLabel newLabel old new ↔ Compared old new ∧
      (diffOps flags (textLines old) (textLines new)).all (·.1 = .equal) = true := by
  simp only [ExitsZero, utilDiff_zero_iff, exists_eq_left]

/-- Without a filter every other pair has status 1: no hunk names a missing line. -/
theorem exitsOne_of_plain (hblank : flags.ignoreBlankLines = false)
    (hspace : flags.ignoreAllSpace = false)
    (h : ¬ (Compared old new ∧
      (diffOps flags (textLines old) (textLines new)).all (·.1 = .equal) = true)) :
    ExitsOne format flags oldLabel newLabel old new := by
  have hbounds : ∀ e ∈ diffOps flags (textLines old) (textLines new),
      InBounds (textLines old).length (textLines new).length e := by
    simpa [diffOps, comparisonLines, hblank, hspace, computeEditScript] using
      script_inBounds (textLines old) (textLines new) 0 0
  obtain ⟨hunks, hhunks⟩ :=
    Option.isSome_iff_exists.mp (groupHunks_isSome flags.contextLines hbounds)
  rw [ExitsOne, utilDiff, diffTexts]
  split
  case isTrue => exact ⟨_, rfl⟩
  case isFalse hcells =>
    rw [if_neg fun hops => h ⟨Nat.le_of_not_lt hcells, hops⟩]
    split
    · exact ⟨_, rfl⟩
    · rw [hhunks]
      exact ⟨_, rfl⟩

end Verdict

theorem diffOps_plain (hblank : flags.ignoreBlankLines = false) :
    (diffOps flags as bs).all (·.1 = .equal) = true ↔
      comparisonLines flags as = comparisonLines flags bs := by
  rw [diffOps, if_neg (by simp [hblank])]
  exact script_unchanged _ _ 0 0

theorem diffOps_blank (hspace : flags.ignoreAllSpace = false)
    (hblank : flags.ignoreBlankLines = true) :
    (diffOps flags as bs).all (·.1 = .equal) = true ↔ KeepsText as bs := by
  rw [diffOps, if_pos hblank]
  simp only [comparisonLines, hspace]
  exact script_blank rfl rfl

/-- The verdict is exact where the lines that are compared agree as the bytes do. -/
theorem exact_iff :
    Exact format flags oldLabel newLabel old new ↔ Faithful flags old new := by
  have hplain : flags.ignoreAllSpace = false → flags.ignoreBlankLines = false →
      ((diffOps flags (textLines old) (textLines new)).all (·.1 = .equal) = true ↔
        textLines old = textLines new) := by
    intro hspace hblank
    rw [diffOps_plain _ _ _ hblank]
    simp [comparisonLines, hspace]
  constructor
  · intro h
    refine ⟨fun hspace hblank => ?_, fun hspace hblank => ?_, fun hspace hblank => ?_⟩
    · rw [← (h.plain hspace hblank).1, utilDiff_zero_iff, hplain hspace hblank]
      simp
    · rw [← h.space hspace hblank, exitsZero_iff, diffOps_plain _ _ _ hblank]
      simp [comparisonLines, hspace]
    · rw [← h.blank hspace hblank, exitsZero_iff, diffOps_blank _ _ _ hspace hblank]
  · intro h
    refine ⟨fun hspace hblank => ⟨?_, fun hne => ?_⟩, fun hspace hblank => ?_,
      fun hspace hblank => ?_⟩
    · rw [h.plain hspace hblank, utilDiff_zero_iff, hplain hspace hblank]
      simp
    · apply exitsOne_of_plain hblank hspace
      rw [hplain hspace hblank, ← h.plain hspace hblank]
      exact hne
    · rw [h.space hspace hblank, exitsZero_iff, diffOps_plain _ _ _ hblank]
      simp [comparisonLines, hspace]
    · rw [h.blank hspace hblank, exitsZero_iff, diffOps_blank _ _ _ hspace hblank]

/-- A missing last newline is no difference. -/
theorem newline_unseen : ¬ Exact (fun _ _ _ _ => []) {} [] [] [97, 10] [97] := by
  intro h
  have hequal : ([97, 10] : List UInt8) = [97] := (h.plain rfl rfl).1.mp (by decide)
  simp at hequal

end Wasmsh.Diff

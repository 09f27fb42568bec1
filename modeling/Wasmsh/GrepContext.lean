import Wasmsh.GrepSearch
import Wasmsh.Library.Lines
import Wasmsh.Library.Windows

/-!
# The context lines of `grep`

`grep_process_reader` prints in one pass: lines before a match wait in a buffer, a counter
lets lines behind a match through, and the first match that the limit allows no more ends
the pass.
-/

namespace Wasmsh.Grep

open Windows

/-! ## 1. The pass -/

/-- `GrepProcessState`. -/
structure GrepProcessState where
  matchCount : Nat
  found : Bool
  remainingAfter : Nat
  printedSeparator : Bool
  beforeBuf : List (Nat × List Char)
  deriving DecidableEq, Repr

namespace GrepProcessState

/-- `GrepProcessState::new`. -/
def new : GrepProcessState := ⟨0, false, 0, false, []⟩

/-- `should_stop`. -/
def shouldStop (st : GrepProcessState) (maxCount : Option Nat) : Bool :=
  maxCount.any fun m => decide (m ≤ st.matchCount)

end GrepProcessState

/-- A call of `grep_emit_one` for a line, or a line `--`. -/
abbrev Emitted := Shown (List Char)

/-- `grep_flush_before_context`. -/
def grepFlushBeforeContext (flags : GrepFlags) (st : GrepProcessState) :
    List Emitted × GrepProcessState :=
  if flags.beforeContext = 0 ∨ st.beforeBuf = [] then ([], { st with beforeBuf := [] })
  else
    ((if st.printedSeparator then [.separator] else []) ++
      st.beforeBuf.map (fun e => .item e.1 e.2), { st with beforeBuf := [] })

/-- `grep_handle_match`; the flag says whether the pass ends. -/
def grepHandleMatch (flags : GrepFlags) (line : List Char) (lineNum : Nat)
    (st : GrepProcessState) : List Emitted × GrepProcessState × Bool :=
  let st := { st with found := true, matchCount := st.matchCount + 1 }
  if flags.quiet || flags.filesOnly then ([], st, st.shouldStop flags.maxCount)
  else if flags.countOnly then ([], st, st.shouldStop flags.maxCount)
  else
    let flushed := grepFlushBeforeContext flags st
    let st := { flushed.2 with
      remainingAfter := flags.afterContext, printedSeparator := true }
    (flushed.1 ++ [.item lineNum line], st, st.shouldStop flags.maxCount)

/-- `grep_handle_nonmatch`. -/
def grepHandleNonmatch (flags : GrepFlags) (line : List Char) (lineNum : Nat)
    (st : GrepProcessState) : List Emitted × GrepProcessState :=
  if 0 < st.remainingAfter ∧ flags.countOnly = false then
    ([.item lineNum line], { st with remainingAfter := st.remainingAfter - 1 })
  else if 0 < flags.beforeContext then
    let buf := st.beforeBuf ++ [(lineNum, line)]
    ([], { st with beforeBuf := if flags.beforeContext < buf.length then buf.tail else buf })
  else ([], st)

/-- The loop of `grep_process_reader`, for whatever `grep_line_matches` selects. -/
def grepProcessLoop (selects : List Char → Bool) (flags : GrepFlags) :
    GrepProcessState → Nat → List (List Char) → List Emitted × GrepProcessState
  | st, _, [] => ([], st)
  | st, lineNum, line :: lines =>
    let lineNum := lineNum + 1
    if selects line then
      let step := grepHandleMatch flags line lineNum st
      if step.2.2 then (step.1, step.2.1)
      else
        let more := grepProcessLoop selects flags step.2.1 lineNum lines
        (step.1 ++ more.1, more.2)
    else
      let step := grepHandleNonmatch flags line lineNum st
      let more := grepProcessLoop selects flags step.2 lineNum lines
      (step.1 ++ more.1, more.2)

/-- `grep_process_reader`: what it prints, whether there was a match, and how many. -/
def grepProcessReader (selects : List Char → Bool) (flags : GrepFlags)
    (lines : List (List Char)) : List Emitted × Bool × Nat :=
  let run := grepProcessLoop selects flags .new 0 lines
  (run.1, run.2.found, run.2.matchCount)

/-! ## 2. What it should print -/

/-- The lines with their selection. -/
def marked (selects : List Char → Bool) (lines : List (List Char)) : List (List Char × Bool) :=
  lines.map fun line => (line, selects line)

/-- The pass prints the lines near a selected one, with `--` between two that are apart. -/
def PrintsContext (selects : List Char → Bool) (flags : GrepFlags) (lines : List (List Char)) :
    Prop :=
  (grepProcessReader selects flags lines).1 =
    shownNear flags.afterContext flags.beforeContext
      (select flags.maxCount (marked selects lines))

/-- The lines between two selected ones all are context behind the first, or more than both
    contexts hold while there is one before the second. -/
def GapFits (flags : GrepFlags) (g : Nat) : Prop :=
  g ≤ flags.afterContext ∨
    0 < flags.beforeContext ∧ flags.afterContext + flags.beforeContext < g

/-- A limit leaves no line out: none is selected when it is zero, and otherwise nothing follows
    the last one where there is context behind it. -/
def LimitFits (flags : GrepFlags) (items : List (List Char × Bool)) : Option Nat → Prop
  | none => True
  | some 0 => ∀ e ∈ items, e.2 = false
  | some (n + 1) => flags.afterContext = 0 ∨ behind (n + 1) items = []

/-- The options that print lines. -/
structure PrintsLines (flags : GrepFlags) : Prop where
  countOnly : flags.countOnly = false
  filesOnly : flags.filesOnly = false
  quiet : flags.quiet = false

/-! ## 3. One turn -/

section

variable {selects : List Char → Bool} {flags : GrepFlags} {st : GrepProcessState}

/-- A line that waits makes room in a full buffer. -/
theorem buffer_push (seen : List (Nat × List Char)) (e : Nat × List Char) (limit : Nat)
    (hlimit : 0 < limit) :
    (if limit < (seen.rtake limit ++ [e]).length then (seen.rtake limit ++ [e]).tail
      else seen.rtake limit ++ [e]) = (seen ++ [e]).rtake limit := by
  have hle : (seen.rtake limit).length ≤ limit := by
    rw [List.rtake, List.length_drop]
    omega
  rw [← Rings.pushBounded_rtake, Rings.pushBounded, if_neg (Nat.ne_of_gt hlimit),
    List.length_append, List.length_singleton]
  by_cases hfull : (seen.rtake limit).length = limit
  · have hne : seen.rtake limit ≠ [] := by
      rintro hnil
      rw [hnil] at hfull
      exact Nat.ne_of_lt hlimit hfull
    rw [if_pos (by omega), if_pos hfull, List.tail_append_of_ne_nil hne]
  · rw [if_neg (by omega), if_neg hfull]

/-- Lines that are not selected: those in the window are printed, the last others wait. -/
theorem grepProcessLoop_gap (hflags : PrintsLines flags) {seen : List (Nat × List Char)}
    (hseen : st.beforeBuf = seen.rtake flags.beforeContext) (n : Nat) {gap : List (List Char)}
    (hgap : ∀ line ∈ gap, selects line = false) (lines : List (List Char)) :
    (grepProcessLoop selects flags st n (gap ++ lines)).1 =
      row (n + 1) (gap.take st.remainingAfter) ++
        (grepProcessLoop selects flags
          { st with
            remainingAfter := st.remainingAfter - gap.length
            beforeBuf := (seen ++ (numbered (n + 1) gap).drop st.remainingAfter).rtake
              flags.beforeContext } (n + gap.length) lines).1 := by
  induction gap generalizing st seen n with
  | nil =>
    rw [numbered, List.drop_nil, List.append_nil, ← hseen, List.take_nil]
    rfl
  | cons line gap ih =>
    have hline := hgap line (.head _)
    have hrest : ∀ line ∈ gap, selects line = false := fun l hl => hgap l (.tail _ hl)
    rw [List.cons_append, grepProcessLoop]
    simp only [hline, Bool.false_eq_true, if_false]
    unfold grepHandleNonmatch
    by_cases hleft : 0 < st.remainingAfter
    · obtain ⟨k, hk⟩ : ∃ k, st.remainingAfter = k + 1 := ⟨st.remainingAfter - 1, by omega⟩
      rw [if_pos ⟨hleft, hflags.countOnly⟩]
      simp only
      rw [@ih { st with remainingAfter := st.remainingAfter - 1 } seen hseen (n + 1) hrest]
      simp [hk, row, numbered, Nat.add_assoc, Nat.add_comm 1]
    · have hzero : st.remainingAfter = 0 := by omega
      rw [if_neg fun h => hleft h.1]
      by_cases hbefore : 0 < flags.beforeContext
      · rw [if_pos hbefore, hseen]
        simp only [buffer_push seen (n + 1, line) _ hbefore]
        rw [@ih { st with beforeBuf := (seen ++ [(n + 1, line)]).rtake flags.beforeContext } _ rfl
          (n + 1) hrest]
        simp [hzero, row, numbered, Nat.add_assoc, Nat.add_comm 1]
      · have hnone : flags.beforeContext = 0 := by omega
        rw [if_neg hbefore]
        simp only
        rw [@ih st seen hseen (n + 1) hrest]
        simp [hzero, hnone, row, numbered, Nat.add_assoc, Nat.add_comm 1]

/-- A selected line: what waits is printed, after `--` when anything was printed before. -/
theorem grepHandleMatch_eq (hflags : PrintsLines flags) {waits : List (Nat × List Char)}
    (hbuf : st.beforeBuf = waits.rtake flags.beforeContext) (line : List Char) (n : Nat) :
    grepHandleMatch flags line n st =
      ((if st.printedSeparator = true ∧ 0 < flags.beforeContext ∧ waits ≠ [] then [.separator]
          else []) ++ (waits.rtake flags.beforeContext).map (fun e => .item e.1 e.2) ++
          [.item n line],
        ⟨st.matchCount + 1, true, flags.afterContext, true, []⟩,
        flags.maxCount.any fun m => decide (m ≤ st.matchCount + 1)) := by
  have hempty : flags.beforeContext = 0 ∨ waits.rtake flags.beforeContext = [] ↔
      ¬ (0 < flags.beforeContext ∧ waits ≠ []) := by
    rw [List.rtake, List.drop_eq_nil_iff, ← List.length_pos_iff]
    omega
  unfold grepHandleMatch grepFlushBeforeContext
  simp only [hflags.quiet, hflags.filesOnly, hflags.countOnly, hbuf, hempty]
  by_cases hwaits : 0 < flags.beforeContext ∧ waits ≠ []
  · simp [hwaits, GrepProcessState.shouldStop]
  · have hnil : waits.rtake flags.beforeContext = [] := by
      rcases hempty.mpr hwaits with h | h
      · rw [h, List.rtake_zero]
      · exact h
    simp [hwaits, hnil, GrepProcessState.shouldStop]

end

/-! ## 4. The whole pass -/

section

variable {selects : List Char → Bool} {flags : GrepFlags}

theorem marked_unselected {gap : List (List Char)} (hgap : ∀ line ∈ gap, selects line = false) :
    marked selects gap = gap.map fun line => (line, false) :=
  List.map_congr_left fun line hline => by rw [hgap line hline]

/-- Lines up to the first selected one. -/
theorem split_selected (lines : List (List Char)) :
    (∀ line ∈ lines, selects line = false) ∨ ∃ gap m rest, lines = gap ++ m :: rest ∧
      (∀ line ∈ gap, selects line = false) ∧ selects m = true := by
  induction lines with
  | nil => exact .inl fun _ h => absurd h List.not_mem_nil
  | cons line lines ih =>
    cases hline : selects line with
    | true => exact .inr ⟨[], line, lines, rfl, fun _ h => absurd h List.not_mem_nil, hline⟩
    | false =>
      rcases ih with hnone | ⟨gap, m, rest, rfl, hgap, hm⟩
      · exact .inl (List.forall_mem_cons.mpr ⟨hline, hnone⟩)
      · exact .inr ⟨line :: gap, m, rest, rfl, List.forall_mem_cons.mpr ⟨hline, hgap⟩, hm⟩

/-- What is printed up to a selected line, and from there on unless the limit is met. -/
theorem grepProcessLoop_match (hflags : PrintsLines flags) {st : GrepProcessState}
    (hbuf : st.beforeBuf = []) (n : Nat) {gap : List (List Char)}
    (hgap : ∀ line ∈ gap, selects line = false) {m : List Char} (hm : selects m = true)
    (rest : List (List Char)) :
    (grepProcessLoop selects flags st n (gap ++ m :: rest)).1 =
      row (n + 1) (gap.take st.remainingAfter) ++
        ((if st.printedSeparator = true ∧ 0 < flags.beforeContext ∧ st.remainingAfter < gap.length
            then [.separator] else []) ++
          (((numbered (n + 1) gap).drop st.remainingAfter).rtake flags.beforeContext).map
            (fun e => .item e.1 e.2) ++
          .item (n + 1 + gap.length) m ::
            if flags.maxCount.any fun k => decide (k ≤ st.matchCount + 1) then []
            else (grepProcessLoop selects flags
              ⟨st.matchCount + 1, true, flags.afterContext, true, []⟩ (n + gap.length + 1)
              rest).1) := by
  have hseen : st.beforeBuf = ([] : List (Nat × List Char)).rtake flags.beforeContext := by
    rw [hbuf, List.rtake_nil]
  have hwaits : (numbered (n + 1) gap).drop st.remainingAfter ≠ [] ↔
      st.remainingAfter < gap.length := by
    rw [ne_eq, List.drop_eq_nil_iff, length_numbered, Nat.not_le]
  rw [grepProcessLoop_gap hflags hseen n hgap, List.nil_append, grepProcessLoop]
  simp only [hm, if_true]
  rw [grepHandleMatch_eq hflags rfl]
  simp only [hwaits, Nat.add_right_comm n gap.length 1]
  by_cases hstop : (flags.maxCount.any fun k => decide (k ≤ st.matchCount + 1)) = true
  · simp [hstop]
  · simp [hstop]

/-- The gaps that count once something was printed, or before. -/
def countedGaps (printed : Bool) (items : List (List Char × Bool)) : List Nat :=
  if printed then gapsFrom 0 items else gaps items

/-- From a selected line on, or from the first line. -/
theorem grepProcessLoop_iff (hflags : PrintsLines flags) (lines : List (List Char))
    {st : GrepProcessState} {limit : Option Nat} (n : Nat) (hbuf : st.beforeBuf = [])
    (hafter : st.remainingAfter = if st.printedSeparator then flags.afterContext else 0)
    (hlimit : limit = flags.maxCount.map (· - st.matchCount)) (hmore : limit ≠ some 0) :
    (grepProcessLoop selects flags st n lines).1 =
        shown st.printedSeparator st.printedSeparator (n + 1)
          (keeps flags.afterContext flags.beforeContext st.remainingAfter
            (select limit (marked selects lines))) ↔
      (∀ g ∈ countedGaps st.printedSeparator (select limit (marked selects lines)),
          GapFits flags g) ∧ LimitFits flags (marked selects lines) limit := by
  induction hlen : lines.length using Nat.strong_induction_on generalizing lines st limit n with
  | _ len ih =>
  have hwindow : st.printedSeparator = false → st.remainingAfter = 0 := by
    intro h
    rw [hafter, h]
    rfl
  have hseen : st.beforeBuf = ([] : List (Nat × List Char)).rtake flags.beforeContext := by
    rw [hbuf, List.rtake_nil]
  rcases @split_selected selects lines with hnone | ⟨gap, m, rest, rfl, hgap, hm⟩
  · -- no more matches
    have hloop := grepProcessLoop_gap hflags hseen n hnone []
    rw [List.append_nil] at hloop
    have hends : LimitFits flags (marked selects lines) limit := by
      rw [marked_unselected hnone]
      rcases limit with _ | _ | k
      · trivial
      · exact absurd rfl hmore
      · exact .inr (behind_unmarked k lines)
    rw [hloop, marked_unselected hnone, select_unmarked, shown_end hwindow]
    refine iff_of_true (List.append_nil _) ⟨?_, marked_unselected hnone ▸ hends⟩
    simp [countedGaps, gaps, gapsFrom_unmarked]
  · have hmarks : marked selects (gap ++ m :: rest) =
        gap.map (fun line => (line, false)) ++ (m, true) :: marked selects rest := by
      rw [marked, List.map_append, List.map_cons, hm]
      exact congrArg (· ++ _) (marked_unselected hgap)
    rw [grepProcessLoop_match hflags hbuf n hgap hm, hmarks, select_gap hmore,
      shown_gap hwindow, List.append_cancel_left_eq, separated_eq_iff]
    have hgaps : (∀ g ∈ countedGaps st.printedSeparator (gap.map (fun line => (line, false)) ++
          (m, true) :: select (limit.map (· - 1)) (marked selects rest)), GapFits flags g) ↔
        (st.printedSeparator = true → GapFits flags gap.length) ∧
          ∀ g ∈ gapsFrom 0 (select (limit.map (· - 1)) (marked selects rest)),
            GapFits flags g := by
      unfold countedGaps gaps
      rw [gapsFrom_gap, Nat.zero_add]
      cases st.printedSeparator <;> simp
    have hfits : (st.printedSeparator = true ∧ 0 < flags.beforeContext ∧
          st.remainingAfter < gap.length ↔
        st.printedSeparator = true ∧ flags.beforeContext < (gap.drop st.remainingAfter).length) ↔
          (st.printedSeparator = true → GapFits flags gap.length) := by
      rw [hafter, List.length_drop]
      unfold GapFits
      cases st.printedSeparator
      · simp
      · simp only [true_and, if_true, true_imp_iff]
        omega
    rw [hgaps, hfits, and_assoc]
    refine and_congr_right fun _ => ?_
    have hstop : (flags.maxCount.any fun k => decide (k ≤ st.matchCount + 1)) =
        decide (limit.map (· - 1) = some 0) := by
      rw [hlimit] at hmore ⊢
      cases flags.maxCount with
      | none => rfl
      | some k =>
        simp only [Option.map_some, ne_eq, Option.some.injEq] at hmore ⊢
        rw [Option.any_some, Bool.eq_iff_iff, decide_eq_true_eq, decide_eq_true_eq]
        omega
    rw [hstop]
    by_cases hlast : limit.map (· - 1) = some 0
    · -- the limit is met, and the window behind the match is not printed
      obtain rfl : limit = some 1 := by
        rcases limit with _ | _ | _ | k
        · cases hlast
        · exact absurd rfl hmore
        · rfl
        · cases hlast
      rw [if_pos (decide_eq_true hlast), hlast, select_zero, shown_end (by simp), gapsFrom_unmarked]
      have hrow : ([] : List Emitted) = row (n + 1 + gap.length + 1)
          (((marked selects rest).map Prod.fst).take flags.afterContext) ↔
            flags.afterContext = 0 ∨ marked selects rest = [] := by
        rw [eq_comm, ← List.length_eq_zero_iff, row, List.length_map, length_numbered,
          List.length_take, List.length_map, ← List.length_eq_zero_iff]
        omega
      rw [hrow, LimitFits, behind_gap]
      simp [behind]
    · have hrest : rest.length < len := by
        rw [← hlen, List.length_append, List.length_cons]
        omega
      have hnext := @ih rest.length hrest rest
        ⟨st.matchCount + 1, true, flags.afterContext, true, []⟩ (limit.map (· - 1))
        (n + gap.length + 1) rfl rfl
        (by rw [hlimit, Option.map_map]; congr 1) hlast rfl
      have hlimits : LimitFits flags (gap.map (fun line => (line, false)) ++
          (m, true) :: marked selects rest) limit ↔
            LimitFits flags (marked selects rest) (limit.map (· - 1)) := by
        rcases limit with _ | _ | _ | k
        · exact Iff.rfl
        · exact absurd rfl hmore
        · exact absurd rfl hlast
        · exact or_congr_right (by rw [behind_gap])
      rw [if_neg (by simpa using hlast), hlimits, Nat.add_right_comm n 1]
      exact hnext

/-- A limit of zero is seen only after a match was printed. -/
theorem prints_iff_of_zero (hflags : PrintsLines flags) (lines : List (List Char))
    (hzero : flags.maxCount = some 0) :
    PrintsContext selects flags lines ↔ ∀ e ∈ marked selects lines, e.2 = false := by
  have hnothing : shownNear flags.afterContext flags.beforeContext
      (select flags.maxCount (marked selects lines)) = [] := by
    rw [hzero, select_zero, shownNear_eq, shown_end fun _ => rfl]
    rfl
  unfold PrintsContext grepProcessReader
  rw [hnothing]
  rcases @split_selected selects lines with hnone | ⟨gap, m, rest, rfl, hgap, hm⟩
  · have hloop := @grepProcessLoop_gap selects flags .new hflags [] (List.rtake_nil ..).symm 0
      lines hnone []
    rw [List.append_nil] at hloop
    refine iff_of_true hloop ?_
    rw [marked_unselected hnone]
    simp
  · refine iff_of_false ?_ ?_
    · have hloop := @grepProcessLoop_match selects flags hflags .new rfl 0 gap hgap m hm rest
      intro hnil
      rw [hloop] at hnil
      simp at hnil
    · intro h
      have hmem : (m, selects m) ∈ marked selects (gap ++ m :: rest) :=
        List.mem_map_of_mem (f := fun line => (line, selects line))
          (List.mem_append_right _ (.head _))
      have hfalse : selects m = false := h _ hmem
      rw [hm] at hfalse
      cases hfalse

end

/-- **The context of `grep`.**  The pass prints the lines near a selected one, with `--` between
    those that are apart, exactly when every gap between two selected lines fits and the limit
    leaves nothing out. -/
theorem printsContext_iff (selects : List Char → Bool) (flags : GrepFlags)
    (hflags : PrintsLines flags) (lines : List (List Char)) :
    PrintsContext selects flags lines ↔
      (∀ g ∈ gaps (select flags.maxCount (marked selects lines)), GapFits flags g) ∧
        LimitFits flags (marked selects lines) flags.maxCount := by
  by_cases hzero : flags.maxCount = some 0
  · rw [prints_iff_of_zero hflags lines hzero, hzero, select_zero, gaps, gapsFrom_unmarked]
    simp [LimitFits]
  · have hloop := @grepProcessLoop_iff selects flags hflags lines .new flags.maxCount 0 rfl rfl
      (by cases flags.maxCount <;> rfl) hzero
    rw [PrintsContext, shownNear_eq]
    exact hloop

/-- A line that is context of two matches is printed once. -/
theorem shared_line_printed :
    PrintsContext (fun line => line == "a".toList)
      { defaultGrepFlags with afterContext := 1, beforeContext := 1 }
      (["a", "b", "a", "c"].map String.toList) := by
  refine (printsContext_iff _ _ ⟨rfl, rfl, rfl⟩ _).mpr ⟨?_, trivial⟩
  simp [gaps, gapsFrom, select, marked, GapFits, defaultGrepFlags]

/-- With context behind matches only, separate matches are not set apart. -/
theorem no_separator_without_before : ¬ ∀ (selects : List Char → Bool) (flags : GrepFlags),
    PrintsLines flags → ∀ lines, PrintsContext selects flags lines := by
  intro h
  have hout := h (fun line => line == "a".toList) { defaultGrepFlags with afterContext := 1 }
    ⟨rfl, rfl, rfl⟩ (["a", "b", "c", "a"].map String.toList)
  exact absurd hout (by unfold PrintsContext; decide)

end Wasmsh.Grep

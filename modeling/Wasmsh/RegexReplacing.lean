import Wasmsh.PosixRegex
import Wasmsh.Library.Splices

/-!
# Replacing the matches of a regular expression

`replace_impl` of `wasmsh-utils/src/regex_posix.rs`, the substitution of `sed` and `awk`,
beside the matches that it is to replace and the text that is to come out.
-/

namespace Wasmsh.PosixRegex

open Splices

/-! ## 1. The replacement loop -/

/-- `ReplaceMode`. -/
inductive ReplaceMode where
  | first
  | all
  | nth (n : Nat)
  deriving DecidableEq, Repr

/-- `advance_past_match`. -/
def advancePastMatch (relStart relEnd : Nat) : Nat :=
  if relEnd = relStart then relEnd + 1 else relEnd

/-- `should_apply`. -/
def shouldApply (applied matchCount : Nat) : ReplaceMode → Bool
  | .first => applied == 0
  | .all => true
  | .nth n => matchCount == n

/-- What is pushed onto `out`: text of the subject, or the text for the match between two
    offsets. -/
inductive Piece where
  | copied (text : List Char)
  | replaced (start stop : Nat) (text : List Char)
  deriving DecidableEq, Repr

def Piece.text : Piece → List Char
  | copied text => text
  | replaced _ _ text => text

def Piece.replacement : Piece → Option (Replaced Char)
  | copied _ => none
  | replaced start stop text => some (start, stop, text)

/-- `out` as a string. -/
def outputText (pieces : List Piece) : List Char := pieces.flatMap Piece.text

/-- The ranges that were replaced. -/
def replacedOf (pieces : List Piece) : List (Replaced Char) := pieces.filterMap Piece.replacement

/-- The tail behind the cursor. -/
def pushTail (subject : List Char) (cursor : Nat) : Option (List Piece) :=
  if cursor ≤ subject.length then
    (sliceStr subject cursor subject.length).map fun text => [.copied text]
  else some []

section Loop

variable (r : Regex) (subject replacement : List Char) (mode : ReplaceMode)

/-- The `while` loop of `replace_impl`, with the tail; no value is a panic. -/
def replaceLoop : Nat → Nat → Nat → Nat → Option (List Piece)
  | 0, cursor, _, _ => pushTail subject cursor
  | fuel + 1, cursor, applied, matchCount =>
    if cursor ≤ subject.length then
      match leftmostMatch r subject cursor with
      | none => pushTail subject cursor
      | some (caps, relStart, relEnd) =>
        let advance := advancePastMatch relStart relEnd
        if shouldApply applied (matchCount + 1) mode then
          (sliceStr subject cursor (cursor + relStart)).bind fun before =>
            (sliceStr subject cursor subject.length).bind fun remaining =>
              (appendReplacement remaining caps replacement).bind fun text =>
                (if mode = .all then
                  replaceLoop fuel (cursor + advance) (applied + 1) (matchCount + 1)
                else pushTail subject (cursor + advance)).map fun rest =>
                  .copied before :: .replaced (cursor + relStart) (cursor + relEnd) text :: rest
        else
          (sliceStr subject cursor (cursor + advance)).bind fun skipped =>
            (replaceLoop fuel (cursor + advance) applied (matchCount + 1)).map
              (.copied skipped :: ·)
    else pushTail subject cursor

/-- `replace_impl`. -/
def replaceImpl : Option (List Piece) :=
  if r.empty then some [.copied subject]
  else replaceLoop r subject replacement mode (subject.length + 1) 0 0 0

/-- `replace`. -/
def replace : Option (List Piece) := replaceImpl r subject replacement .first

/-- `replace_all`. -/
def replaceAll : Option (List Piece) := replaceImpl r subject replacement .all

/-- `replace_nth`. -/
def replaceNth (nth : Nat) : Option (List Piece) :=
  if nth = 0 then some [.copied subject] else replaceImpl r subject replacement (.nth nth)

/-- The function for a mode. -/
def replaceBy : Option (List Piece) :=
  match mode with
  | .first => replace r subject replacement
  | .all => replaceAll r subject replacement
  | .nth n => replaceNth r subject replacement n

end Loop

/-! ## 2. The matches to replace -/

/-- A match: where the search for it began, its range in the subject, and its captures, whose
    offsets are relative to that place. -/
structure Match where
  place : Nat
  start : Nat
  stop : Nat
  caps : Captures
  deriving DecidableEq, Repr

/-- The leftmost match from a place on, where `^` matches at the start of the subject only. -/
def matchFrom (inner : Engine) (subject : List Char) (place : Nat) : Option Found :=
  (List.range (subject.length - place + 1)).findSome? fun start =>
    (inner.matchesExact (place + start != 0) (subject.drop (place + start))).bind
      (rewriteWhole start)

/-- The place behind the character at a place. -/
def afterChar (subject : List Char) (place : Nat) : Nat :=
  place + 1 + ((subject.drop (place + 1)).takeWhile Utf8.isContinuation).length

/-- Where the search goes on: behind the match, or behind the character at a zero-width one. -/
def nextPlace (subject : List Char) (start stop : Nat) : Nat :=
  if stop = start then afterChar subject stop else stop

/-- The successive matches from a place on. -/
def allMatches (search : Nat → Option Found) (subject : List Char) : Nat → Nat → List Match
  | 0, _ => []
  | fuel + 1, place =>
    if place ≤ subject.length then
      match search place with
      | none => []
      | some (caps, relStart, relEnd) =>
        ⟨place, place + relStart, place + relEnd, caps⟩ ::
          allMatches search subject fuel (nextPlace subject (place + relStart) (place + relEnd))
    else []

/-- The matches that a mode selects. -/
def ReplaceMode.picked : ReplaceMode → List Match → List Match
  | .first, found => found.take 1
  | .all, found => found
  | .nth 0, _ => []
  | .nth (n + 1), found => (found.drop n).take 1

/-- The matches before the one that the mode selects. -/
def ReplaceMode.passed : ReplaceMode → List Match → List Match
  | .nth (n + 1), found => found.take n
  | _, _ => []

/-- The text for a match. -/
def Match.replacementText (m : Match) (subject replacement : List Char) : Option (List Char) :=
  appendReplacement (subject.drop m.place) m.caps replacement

/-- All matches, by a search. -/
def foundBy (r : Regex) (search : Nat → Option Found) (subject : List Char) : List Match :=
  if r.empty then [] else allMatches search subject (subject.length + 1) 0

/-- The ranges that a mode selects, with their replacements. -/
def selected (r : Regex) (search : Nat → Option Found) (subject replacement : List Char)
    (mode : ReplaceMode) : List (Nat × Nat × Option (List Char)) :=
  (mode.picked (foundBy r search subject)).map fun m =>
    (m.start, m.stop, m.replacementText subject replacement)

/-- The call returns, the ranges that it replaces are those of the selected matches, and what
    comes out is the subject with these replaced. -/
def TouchesOnlyMatches (r : Regex) (subject replacement : List Char) (mode : ReplaceMode) : Prop :=
  ∃ pieces, replaceBy r subject replacement mode = some pieces ∧
    (replacedOf pieces).map (fun range => (range.1, range.2.1, some range.2.2)) =
      selected r (matchFrom r.inner subject) subject replacement mode ∧
    outputText pieces = splice subject 0 (replacedOf pieces)

/-! ## 3. When nothing is lost -/

/-- The match and the groups that are inserted are cut between characters, and the match has
    a width or is at the end. -/
def Match.replacedCleanly (m : Match) (subject replacement : List Char) : Bool :=
  Utf8.isCharBoundary (subject.drop m.start) && Utf8.isCharBoundary (subject.drop m.stop) &&
    (m.replacementText subject replacement).isSome &&
      (m.stop != m.start || m.stop == subject.length)

/-- Where `replace_impl` goes on behind a match. -/
def Match.byteAfter (m : Match) : Nat := if m.stop = m.start then m.stop + 1 else m.stop

/-- The loop can go on behind the match: it is inside the subject and between characters. -/
def Match.passedCleanly (m : Match) (subject : List Char) : Bool :=
  decide (m.byteAfter ≤ subject.length) && Utf8.isCharBoundary (subject.drop m.byteAfter)

/-- No character is lost or cut: every match of the engine that is replaced is replaced
    cleanly, and every one before it is passed cleanly. -/
def Clean (r : Regex) (subject replacement : List Char) (mode : ReplaceMode) : Prop :=
  (mode.picked (foundBy r (leftmostMatch r subject) subject)).all
      (·.replacedCleanly subject replacement) = true ∧
    (mode.passed (foundBy r (leftmostMatch r subject) subject)).all (·.passedCleanly subject) = true

instance (r : Regex) (subject replacement : List Char) (mode : ReplaceMode) :
    Decidable (Clean r subject replacement mode) := inferInstanceAs (Decidable (_ ∧ _))

/-! ## 4. One match -/

theorem sliceStr_eq_some {text result : List Char} {start stop : Nat}
    (h : sliceStr text start stop = some result) :
    start ≤ stop ∧ stop ≤ text.length ∧ Utf8.isCharBoundary (text.drop start) = true ∧
      Utf8.isCharBoundary (text.drop stop) = true ∧ result = (text.drop start).take (stop - start) := by
  unfold sliceStr at h
  split at h
  · next hcut =>
    cases h
    exact ⟨hcut.1, hcut.2.1, hcut.2.2.1, hcut.2.2.2, rfl⟩
  · cases h

theorem sliceStr_of_boundaries {text : List Char} {start stop : Nat} (hle : start ≤ stop)
    (hlen : stop ≤ text.length) (hstart : Utf8.isCharBoundary (text.drop start) = true)
    (hstop : Utf8.isCharBoundary (text.drop stop) = true) :
    sliceStr text start stop = some ((text.drop start).take (stop - start)) :=
  if_pos ⟨hle, hlen, hstart, hstop⟩

theorem boundary_of_length_le {text : List Char} {place : Nat} (h : text.length ≤ place) :
    Utf8.isCharBoundary (text.drop place) = true := by
  rw [List.drop_eq_nil_of_le h]
  rfl

theorem sliceStr_tail {text : List Char} {start : Nat} (hle : start ≤ text.length)
    (hstart : Utf8.isCharBoundary (text.drop start) = true) :
    sliceStr text start text.length = some (text.drop start) := by
  rw [sliceStr_of_boundaries hle (Nat.le_refl _) hstart (boundary_of_length_le (Nat.le_refl _)),
    ← List.length_drop, List.take_length]

theorem add_advancePastMatch (cursor relStart relEnd : Nat) (caps : Captures) :
    cursor + advancePastMatch relStart relEnd =
      Match.byteAfter ⟨cursor, cursor + relStart, cursor + relEnd, caps⟩ := by
  simp only [advancePastMatch, Match.byteAfter, Nat.add_left_cancel_iff]
  split
  · rfl
  · rfl

/-- Behind a one-byte character the search goes on where the loop does. -/
theorem nextPlace_eq {subject : List Char} {m : Match}
    (h : Utf8.isCharBoundary (subject.drop m.byteAfter) = true) :
    nextPlace subject m.start m.stop = m.byteAfter := by
  unfold nextPlace
  unfold Match.byteAfter at h ⊢
  split
  · next hzero =>
    rw [if_pos hzero] at h
    rw [afterChar]
    cases hrest : subject.drop (m.stop + 1) with
    | nil => rfl
    | cons b bs =>
      have hb : Utf8.isContinuation b = false := by simpa [Utf8.isCharBoundary, hrest] using h
      rw [List.takeWhile_cons_of_neg (by rw [hb]; exact Bool.false_ne_true)]
      rfl
  · rfl

theorem rewriteWhole_inRange {inner : Engine} (hengine : inner.InRange) {input : List Char}
    {start : Nat} {reported caps : Captures} {s t : Nat} (hstart : start ≤ input.length)
    (hreported : inner.matchesFirst (input.drop start) = some reported ∨
      ∃ noStart, inner.matchesExact noStart (input.drop start) = some reported)
    (h : rewriteWhole start reported = some (caps, s, t)) : s ≤ t ∧ t ≤ input.length := by
  rcases rewriteWhole_eq_some h with ⟨s', t', hwhole, rfl, rfl, -⟩
  have hrange := hengine.whole hreported hwhole
  rw [List.length_drop] at hrange
  omega

theorem anchoredSearch_inRange {inner : Engine} (hengine : inner.InRange) {input : List Char}
    {limit : Nat} {caps : Captures} {s t : Nat}
    (h : anchoredSearch inner input limit = some (caps, s, t)) : s ≤ t ∧ t ≤ input.length := by
  rcases List.exists_of_findSome?_eq_some h with ⟨start, hstart, hfound⟩
  rcases Option.bind_eq_some_iff.mp hfound with ⟨reported, hreported, hwhole⟩
  have hlt := List.mem_range.mp hstart
  exact rewriteWhole_inRange hengine (by omega) (.inr ⟨_, hreported⟩) hwhole

/-- The range of a match is in the rest of the subject. -/
theorem leftmostMatch_inRange {r : Regex} (hengine : r.inner.InRange) {subject : List Char}
    {cursor : Nat} {caps : Captures} {s t : Nat} (hcursor : cursor ≤ subject.length)
    (h : leftmostMatch r subject cursor = some (caps, s, t)) :
    s ≤ t ∧ cursor + t ≤ subject.length := by
  suffices hrest : s ≤ t ∧ t ≤ (subject.drop cursor).length by
    rw [List.length_drop] at hrest
    omega
  unfold leftmostMatch at h
  split at h
  · cases h
    exact ⟨Nat.le_refl 0, Nat.zero_le _⟩
  · dsimp only at h
    split at h
    · next caps' relStart relEnd hfirst =>
      have hself : relStart ≤ relEnd ∧ relEnd ≤ (subject.drop cursor).length := by
        rcases Option.bind_eq_some_iff.mp hfirst with ⟨reported, hreported, hmap⟩
        rcases Option.map_eq_some_iff.mp hmap with ⟨range, hrange, hpair⟩
        cases hpair
        exact hengine.whole (.inl hreported) hrange
      split at h
      · cases h
        exact hself
      · split at h
        · next found hfound =>
          cases h
          exact anchoredSearch_inRange hengine hfound
        · cases h
          exact hself
    · exact anchoredSearch_inRange hengine h

/-! ## 5. The loop -/

section Loop

variable {r : Regex} {subject replacement : List Char} {mode : ReplaceMode}

/-- The part of a mode that is left after a number of matches. -/
def ReplaceMode.after (count : Nat) : ReplaceMode → ReplaceMode
  | .nth n => .nth (n - count)
  | mode => mode

/-- What the counters of the loop are: nothing was replaced if one match is to be, and the
    one that is to be replaced is still to come. -/
def ReplaceMode.Awaits (mode : ReplaceMode) (applied matchCount : Nat) : Prop :=
  (mode = .first → applied = 0) ∧ ∀ n, mode = .nth n → matchCount < n

/-- The match that is found next is replaced, and then all others or none. -/
theorem picked_of_apply {applied count : Nat} (hawait : mode.Awaits applied count)
    (happly : shouldApply applied (count + 1) mode = true) (m : Match) (found : List Match) :
    (mode.after count).picked (m :: found) = m :: (if mode = .all then found else []) ∧
      (mode.after count).passed (m :: found) = [] := by
  cases mode with
  | first => exact ⟨rfl, rfl⟩
  | all => exact ⟨rfl, rfl⟩
  | nth n =>
    have hn : n - count = 0 + 1 := by
      have heq : count + 1 = n := of_decide_eq_true happly
      omega
    rw [ReplaceMode.after, hn]
    exact ⟨rfl, rfl⟩

theorem picked_of_skip {applied count : Nat} (hawait : mode.Awaits applied count)
    (hskip : shouldApply applied (count + 1) mode = false) (m : Match) (found : List Match) :
    (mode.after count).picked (m :: found) = (mode.after (count + 1)).picked found ∧
      (mode.after count).passed (m :: found) = m :: (mode.after (count + 1)).passed found ∧
        mode.Awaits applied (count + 1) := by
  cases mode with
  | first =>
    have hzero := hawait.1 rfl
    subst hzero
    cases hskip
  | all => cases hskip
  | nth n =>
    have hlt := hawait.2 n rfl
    have hne : count + 1 ≠ n := of_decide_eq_false hskip
    rcases Nat.exists_eq_add_of_lt (Nat.lt_of_le_of_ne hlt hne) with ⟨k, rfl⟩
    have hbefore : count + 1 + k + 1 - count = k + 1 + 1 := by omega
    have hafter : count + 1 + k + 1 - (count + 1) = k + 1 := by omega
    rw [ReplaceMode.after, ReplaceMode.after, hbefore, hafter]
    refine ⟨rfl, rfl, ?_⟩
    refine ⟨nofun, ?_⟩
    intro n' hn'
    cases hn'
    omega

/-- The replaced ranges, as `selected` lists them. -/
def tagged (pieces : List Piece) : List (Nat × Nat × Option (List Char)) :=
  (replacedOf pieces).map fun range => (range.1, range.2.1, some range.2.2)

/-- The ranges of matches, with their replacements. -/
def entries (subject replacement : List Char) (found : List Match) :
    List (Nat × Nat × Option (List Char)) :=
  found.map fun m => (m.start, m.stop, m.replacementText subject replacement)

/-- What is pushed from a place on, for the matches that are replaced and those before them:
    no more than the spliced subject, and as much only if every match was treated cleanly. -/
structure Copies (subject replacement : List Char) (cursor : Nat) (picked passed : List Match)
    (pieces : List Piece) : Prop where
  inOrder : InOrder subject cursor (replacedOf pieces)
  boundary : Utf8.isCharBoundary (subject.drop cursor) = true
  listed : tagged pieces = entries subject replacement picked
  passedCleanly : passed.all (·.passedCleanly subject) = true
  length_le : (outputText pieces).length ≤ (splice subject cursor (replacedOf pieces)).length
  exact : (outputText pieces).length = (splice subject cursor (replacedOf pieces)).length →
    picked.all (·.replacedCleanly subject replacement) = true
  lossless : picked.all (·.replacedCleanly subject replacement) = true →
    outputText pieces = splice subject cursor (replacedOf pieces)

theorem copies_of_pushTail {cursor : Nat} {pieces : List Piece}
    (h : pushTail subject cursor = some pieces) :
    Copies subject replacement cursor [] [] pieces := by
  have hpieces : Utf8.isCharBoundary (subject.drop cursor) = true ∧ replacedOf pieces = [] ∧
      outputText pieces = subject.drop cursor := by
    unfold pushTail at h
    split at h
    · next hle =>
      rcases Option.map_eq_some_iff.mp h with ⟨text, htext, rfl⟩
      have hstart := (sliceStr_eq_some htext).2.2.1
      rw [sliceStr_tail hle hstart] at htext
      cases htext
      exact ⟨hstart, rfl, List.append_nil _⟩
    · next hlt =>
      cases h
      have hle : subject.length ≤ cursor := by omega
      exact ⟨boundary_of_length_le hle, rfl, (List.drop_eq_nil_of_le hle).symm⟩
  rcases hpieces with ⟨hboundary, hnone, htext⟩
  constructor
  · rw [hnone]
    trivial
  · exact hboundary
  · rw [tagged, hnone]
    rfl
  · rfl
  · rw [hnone, htext]
    exact Nat.le_refl _
  · exact fun _ => rfl
  · intro _
    rw [hnone, htext, splice_nil]

theorem pushTail_isSome {cursor : Nat}
    (h : Utf8.isCharBoundary (subject.drop cursor) = true) :
    (pushTail subject cursor).isSome = true := by
  unfold pushTail
  split
  · next hle =>
    rw [sliceStr_tail hle h]
    rfl
  · rfl

/-- Matches before the selected one lose nothing. -/
theorem Copies.skip {m : Match} {picked passed : List Match} {rest : List Piece}
    {skipped : List Char} (hrest : Copies subject replacement m.byteAfter picked passed rest)
    (hslice : sliceStr subject m.place m.byteAfter = some skipped) :
    Copies subject replacement m.place picked (m :: passed) (.copied skipped :: rest) := by
  rcases sliceStr_eq_some hslice with ⟨hle, hlen, hplace, hafter, rfl⟩
  have hsum : m.place + (m.byteAfter - m.place) = m.byteAfter := Nat.add_sub_cancel' hle
  have hinOrder : InOrder subject (m.place + (m.byteAfter - m.place)) (replacedOf rest) := by
    rw [hsum]
    exact hrest.inOrder
  have hsplice := splice_advance hinOrder
  rw [hsum] at hsplice
  have htext : outputText (.copied ((subject.drop m.place).take (m.byteAfter - m.place)) :: rest) =
      (subject.drop m.place).take (m.byteAfter - m.place) ++ outputText rest := rfl
  constructor
  · exact hinOrder.weaken
  · exact hplace
  · exact hrest.listed
  · rw [List.all_cons, hrest.passedCleanly, Bool.and_true, Match.passedCleanly, hafter,
      Bool.and_true]
    exact decide_eq_true hlen
  · show (outputText _).length ≤ (splice subject m.place (replacedOf rest)).length
    rw [htext, hsplice, List.length_append, List.length_append]
    exact Nat.add_le_add_left hrest.length_le _
  · intro hlength
    change (outputText _).length = (splice subject m.place (replacedOf rest)).length at hlength
    rw [htext, hsplice, List.length_append, List.length_append] at hlength
    exact hrest.exact (Nat.add_left_cancel hlength)
  · intro hclean
    show outputText _ = splice subject m.place (replacedOf rest)
    rw [htext, hsplice, hrest.lossless hclean]

/-- The character at a zero-width match is lost. -/
theorem Copies.replace {m : Match} {picked : List Match} {rest : List Piece}
    {before text : List Char} (hrest : Copies subject replacement m.byteAfter picked [] rest)
    (hrange : m.start ≤ m.stop ∧ m.stop ≤ subject.length)
    (hslice : sliceStr subject m.place m.start = some before)
    (hnew : m.replacementText subject replacement = some text) :
    Copies subject replacement m.place (m :: picked) []
      (.copied before :: .replaced m.start m.stop text :: rest) := by
  rcases sliceStr_eq_some hslice with ⟨hle, hlen, hplace, hstart, rfl⟩
  have hstop : m.stop ≤ m.byteAfter ∧ m.byteAfter ≤ m.stop + 1 := by
    unfold Match.byteAfter
    split <;> omega
  have hsum : m.stop + (m.byteAfter - m.stop) = m.byteAfter := Nat.add_sub_cancel' hstop.1
  have hinOrder : InOrder subject (m.stop + (m.byteAfter - m.stop)) (replacedOf rest) := by
    rw [hsum]
    exact hrest.inOrder
  have hsplice := splice_advance hinOrder
  rw [hsum] at hsplice
  set gap := (subject.drop m.stop).take (m.byteAfter - m.stop) with hgap
  have hout : outputText (.copied ((subject.drop m.place).take (m.start - m.place)) ::
      .replaced m.start m.stop text :: rest) =
        (subject.drop m.place).take (m.start - m.place) ++ text ++ outputText rest := by
    rw [List.append_assoc]
    rfl
  have hspliced : splice subject m.place (replacedOf
      (.copied ((subject.drop m.place).take (m.start - m.place)) ::
        .replaced m.start m.stop text :: rest)) =
        (subject.drop m.place).take (m.start - m.place) ++ text ++
          (gap ++ splice subject m.byteAfter (replacedOf rest)) := by
    rw [← hsplice]
    rfl
  -- nothing is lost exactly when the match has a width or is at the end
  have hwidth : gap = [] ↔ m.stop ≠ m.start ∨ m.stop = subject.length := by
    rw [hgap, ← List.length_eq_zero_iff, List.length_take, List.length_drop]
    unfold Match.byteAfter
    split <;> omega
  have hclean : m.replacedCleanly subject replacement = true ↔ gap = [] := by
    have hstopBoundary : m.stop ≠ m.start ∨ m.stop = subject.length →
        Utf8.isCharBoundary (subject.drop m.stop) = true := by
      intro hcase
      by_cases hzero : m.stop = m.start
      · rw [hzero]
        exact hstart
      · have hafter := hrest.boundary
        rw [Match.byteAfter, if_neg hzero] at hafter
        exact hafter
    rw [hwidth, Match.replacedCleanly, hstart, hnew, Option.isSome_some]
    simp only [Bool.true_and, Bool.and_true, Bool.and_eq_true, Bool.or_eq_true, bne_iff_ne,
      beq_iff_eq]
    exact ⟨fun h => h.2, fun h => ⟨hstopBoundary h, h⟩⟩
  constructor
  · exact ⟨hle, hrange.1, hrange.2, hinOrder.weaken⟩
  · exact hplace
  · have hlisted := hrest.listed
    unfold entries at hlisted ⊢
    rw [List.map_cons, ← hlisted, hnew]
    rfl
  · rfl
  · rw [hout, hspliced]
    simp only [List.length_append]
    have := hrest.length_le
    omega
  · intro hlength
    rw [hout, hspliced] at hlength
    simp only [List.length_append] at hlength
    have hnone : gap.length = 0 := by
      have := hrest.length_le
      omega
    have hrestLength : (outputText rest).length =
        (splice subject m.byteAfter (replacedOf rest)).length := by omega
    rw [List.all_cons, hclean.mpr (List.length_eq_zero_iff.mp hnone), hrest.exact hrestLength]
    rfl
  · intro hall
    rw [List.all_cons, Bool.and_eq_true] at hall
    rw [hout, hspliced, hclean.mp hall.1, hrest.lossless hall.2, List.nil_append]

theorem picked_nil (mode : ReplaceMode) : mode.picked [] = [] ∧ mode.passed [] = [] := by
  cases mode with
  | first => exact ⟨rfl, rfl⟩
  | all => exact ⟨rfl, rfl⟩
  | nth n =>
    cases n with
    | zero => exact ⟨rfl, rfl⟩
    | succ n =>
      constructor
      · rw [ReplaceMode.picked, List.drop_nil, List.take_nil]
      · rw [ReplaceMode.passed, List.take_nil]

/-- A loop that returns has pushed what the matches on its way say. -/
theorem copies_of_loop (hengine : r.inner.InRange) (fuel cursor applied count : Nat)
    (pieces : List Piece) (hawait : mode.Awaits applied count)
    (h : replaceLoop r subject replacement mode fuel cursor applied count = some pieces) :
    Copies subject replacement cursor
      ((mode.after count).picked (allMatches (leftmostMatch r subject) subject fuel cursor))
      ((mode.after count).passed (allMatches (leftmostMatch r subject) subject fuel cursor))
      pieces := by
  induction fuel generalizing cursor applied count pieces with
  | zero =>
    rw [allMatches, (picked_nil _).1, (picked_nil _).2]
    exact copies_of_pushTail h
  | succ fuel ih =>
    rw [replaceLoop] at h
    rw [allMatches]
    split at h
    · next hcursor =>
      rw [if_pos hcursor]
      cases hfound : leftmostMatch r subject cursor with
      | none =>
        rw [hfound] at h
        rw [(picked_nil _).1, (picked_nil _).2]
        exact copies_of_pushTail h
      | some found =>
        rcases found with ⟨caps, relStart, relEnd⟩
        rw [hfound] at h
        dsimp only at h ⊢
        have hrange := leftmostMatch_inRange hengine hcursor hfound
        rw [add_advancePastMatch cursor relStart relEnd caps] at h
        set m : Match := ⟨cursor, cursor + relStart, cursor + relEnd, caps⟩ with hm
        split at h
        · next happly =>
          rcases Option.bind_eq_some_iff.mp h with ⟨before, hbefore, h⟩
          rcases Option.bind_eq_some_iff.mp h with ⟨remaining, hremaining, h⟩
          rcases Option.bind_eq_some_iff.mp h with ⟨text, htext, h⟩
          rcases Option.map_eq_some_iff.mp h with ⟨rest, hrest, rfl⟩
          have hplace := (sliceStr_eq_some hremaining).2.2.1
          rw [sliceStr_tail hcursor hplace] at hremaining
          cases hremaining
          rw [(picked_of_apply hawait happly m _).1, (picked_of_apply hawait happly m _).2]
          refine Copies.replace (m := m) ?_ ⟨?_, hrange.2⟩ hbefore htext
          · split at hrest
            · next hall =>
              subst hall
              have hcopies := ih _ _ _ _ ⟨nofun, fun _ h => (by cases h)⟩ hrest
              rw [if_pos rfl, nextPlace_eq hcopies.boundary]
              exact hcopies
            · next hone =>
              rw [if_neg hone]
              exact copies_of_pushTail hrest
          · exact Nat.add_le_add_left hrange.1 cursor
        · next hskip =>
          rw [Bool.not_eq_true] at hskip
          rcases Option.bind_eq_some_iff.mp h with ⟨skipped, hskipped, h⟩
          rcases Option.map_eq_some_iff.mp h with ⟨rest, hrest, rfl⟩
          have hstep := picked_of_skip hawait hskip m
          have hcopies := ih _ _ _ _ (hstep []).2.2 hrest
          rw [(hstep _).1, (hstep _).2.1, nextPlace_eq hcopies.boundary]
          exact Copies.skip (m := m) hcopies hskipped
    · next hcursor =>
      rw [if_neg hcursor, (picked_nil _).1, (picked_nil _).2]
      exact copies_of_pushTail h

/-- One round for each place of the cursor is enough. -/
theorem replaceLoop_fuel (hengine : r.inner.InRange) (fuel cursor applied count : Nat)
    (hfuel : subject.length < cursor + fuel) :
    replaceLoop r subject replacement mode (fuel + 1) cursor applied count =
      replaceLoop r subject replacement mode fuel cursor applied count := by
  induction fuel generalizing cursor applied count with
  | zero =>
    show (if cursor ≤ subject.length then _ else pushTail subject cursor) = pushTail subject cursor
    exact if_neg (by omega)
  | succ fuel ih =>
    rw [replaceLoop]
    conv => rhs; rw [replaceLoop]
    split
    · next hcursor =>
      cases hfound : leftmostMatch r subject cursor with
      | none => rfl
      | some found =>
        rcases found with ⟨caps, relStart, relEnd⟩
        dsimp only
        have hrange := leftmostMatch_inRange hengine hcursor hfound
        have hadvance : 0 < advancePastMatch relStart relEnd := by
          unfold advancePastMatch
          split <;> omega
        rw [ih _ _ _ (by omega), ih _ _ _ (by omega)]
    · rfl

theorem boundary_byteAfter {m : Match} (hclean : m.replacedCleanly subject replacement = true) :
    Utf8.isCharBoundary (subject.drop m.byteAfter) = true := by
  unfold Match.replacedCleanly at hclean
  simp only [Bool.and_eq_true, Bool.or_eq_true, bne_iff_ne, beq_iff_eq] at hclean
  unfold Match.byteAfter
  split
  · next hzero =>
    rcases hclean.2 with hne | hend
    · exact absurd hzero hne
    · exact boundary_of_length_le (by omega)
  · exact hclean.1.1.2

/-- The loop returns when every match is treated cleanly. -/
theorem loop_isSome (hengine : r.inner.InRange) (fuel cursor applied count : Nat)
    (hawait : mode.Awaits applied count)
    (hboundary : Utf8.isCharBoundary (subject.drop cursor) = true)
    (hpicked : ((mode.after count).picked
      (allMatches (leftmostMatch r subject) subject fuel cursor)).all
        (·.replacedCleanly subject replacement) = true)
    (hpassed : ((mode.after count).passed
      (allMatches (leftmostMatch r subject) subject fuel cursor)).all
        (·.passedCleanly subject) = true) :
    (replaceLoop r subject replacement mode fuel cursor applied count).isSome = true := by
  induction fuel generalizing cursor applied count with
  | zero => exact pushTail_isSome hboundary
  | succ fuel ih =>
    rw [replaceLoop]
    rw [allMatches] at hpicked hpassed
    split
    · next hcursor =>
      rw [if_pos hcursor] at hpicked hpassed
      cases hfound : leftmostMatch r subject cursor with
      | none => exact pushTail_isSome hboundary
      | some found =>
        rcases found with ⟨caps, relStart, relEnd⟩
        rw [hfound] at hpicked hpassed
        dsimp only at hpicked hpassed ⊢
        have hrange := leftmostMatch_inRange hengine hcursor hfound
        rw [add_advancePastMatch cursor relStart relEnd caps]
        set m : Match := ⟨cursor, cursor + relStart, cursor + relEnd, caps⟩ with hm
        split
        · next happly =>
          have hstep := picked_of_apply hawait happly m
          rw [(hstep _).1, List.all_cons, Bool.and_eq_true] at hpicked
          have hafter := boundary_byteAfter hpicked.1
          have hclean := hpicked.1
          unfold Match.replacedCleanly at hclean
          simp only [Bool.and_eq_true] at hclean
          have hstart : sliceStr subject cursor (cursor + relStart) =
              some ((subject.drop cursor).take (cursor + relStart - cursor)) :=
            sliceStr_of_boundaries (Nat.le_add_right _ _) (by omega) hboundary hclean.1.1.1
          rcases Option.isSome_iff_exists.mp hclean.1.2 with ⟨text, htext⟩
          have htext' : appendReplacement (subject.drop cursor) caps replacement = some text := htext
          rw [hstart, Option.bind_some, sliceStr_tail hcursor hboundary, Option.bind_some, htext',
            Option.bind_some, Option.isSome_map]
          split
          · next hall =>
            subst hall
            have hnext := hpicked.2
            rw [if_pos rfl, nextPlace_eq hafter] at hnext
            exact ih _ _ _ ⟨nofun, fun _ h => (by cases h)⟩ hafter hnext rfl
          · exact pushTail_isSome hafter
        · next hskip =>
          rw [Bool.not_eq_true] at hskip
          have hstep := picked_of_skip hawait hskip m
          rw [(hstep _).2.1, List.all_cons, Bool.and_eq_true] at hpassed
          rw [(hstep _).1] at hpicked
          have hclean := hpassed.1
          unfold Match.passedCleanly at hclean
          rw [Bool.and_eq_true, decide_eq_true_eq] at hclean
          have hle : cursor ≤ m.byteAfter := by
            unfold Match.byteAfter
            split <;> simp only [hm] <;> omega
          have hskipped := sliceStr_of_boundaries hle hclean.1 hboundary hclean.2
          rw [nextPlace_eq hclean.2] at hpicked hpassed
          rw [hskipped, Option.bind_some, Option.isSome_map]
          exact ih _ _ _ (hstep []).2.2 hclean.2 hpicked hpassed.2
    · exact pushTail_isSome hboundary

end Loop

/-! ## 6. What comes out -/

section Outcome

variable {r : Regex} {mode : ReplaceMode}

/-- Nothing is searched for the empty pattern, or for the match before the first. -/
theorem replaceBy_of_idle (subject replacement : List Char)
    (h : r.empty = true ∨ mode = .nth 0) :
    replaceBy r subject replacement mode = some [.copied subject] ∧
      ∀ search, mode.picked (foundBy r search subject) = [] ∧
        mode.passed (foundBy r search subject) = [] := by
  rcases h with hempty | rfl
  · have himpl : ∀ mode, replaceImpl r subject replacement mode = some [.copied subject] :=
      fun _ => if_pos hempty
    constructor
    · cases mode with
      | first => exact himpl _
      | all => exact himpl _
      | nth n =>
        show (if n = 0 then _ else _) = _
        split
        · rfl
        · exact himpl _
    · intro search
      rw [foundBy, if_pos hempty]
      exact picked_nil mode
  · exact ⟨rfl, fun _ => ⟨rfl, rfl⟩⟩

theorem replaceBy_of_busy {subject replacement : List Char} (hempty : ¬ r.empty = true) (hmode : mode ≠ .nth 0) :
    replaceBy r subject replacement mode =
      replaceLoop r subject replacement mode (subject.length + 1) 0 0 0 := by
  have himpl : ∀ mode, replaceImpl r subject replacement mode =
      replaceLoop r subject replacement mode (subject.length + 1) 0 0 0 :=
    fun _ => if_neg hempty
  cases mode with
  | first => exact himpl _
  | all => exact himpl _
  | nth n =>
    show (if n = 0 then _ else _) = _
    rw [if_neg (fun h => hmode (by rw [h])), himpl]

theorem awaits_start (hmode : mode ≠ .nth 0) : mode.Awaits 0 0 := by
  refine ⟨fun _ => rfl, ?_⟩
  rintro n rfl
  exact Nat.pos_of_ne_zero fun h => hmode (by rw [h])

theorem after_zero (mode : ReplaceMode) : mode.after 0 = mode := by
  cases mode <;> rfl

theorem foundBy_of_busy (hempty : ¬ r.empty = true) (search : Nat → Option Found)
    (subject : List Char) :
    foundBy r search subject = allMatches search subject (subject.length + 1) 0 :=
  if_neg hempty

/-- What a call that returns has pushed. -/
theorem copies_of_replaceBy (hengine : r.inner.InRange) {subject replacement : List Char}
    {pieces : List Piece} (hempty : ¬ r.empty = true) (hmode : mode ≠ .nth 0)
    (h : replaceBy r subject replacement mode = some pieces) :
    Copies subject replacement 0 (mode.picked (foundBy r (leftmostMatch r subject) subject))
      (mode.passed (foundBy r (leftmostMatch r subject) subject)) pieces := by
  rw [replaceBy_of_busy hempty hmode] at h
  have hrun := copies_of_loop hengine _ _ _ _ pieces (awaits_start hmode) h
  rw [after_zero] at hrun
  rw [foundBy_of_busy hempty]
  exact hrun

/-- A call that treats all matches cleanly returns, and replaces the matches that it finds. -/
theorem replaceBy_of_clean (hengine : r.inner.InRange) {text replacement : List Char}
    (hclean : Clean r (Utf8.encode text) replacement mode) :
    ∃ pieces, replaceBy r (Utf8.encode text) replacement mode = some pieces ∧
      tagged pieces = selected r (leftmostMatch r (Utf8.encode text)) (Utf8.encode text)
        replacement mode ∧
      outputText pieces = splice (Utf8.encode text) 0 (replacedOf pieces) := by
  by_cases hidle : r.empty = true ∨ mode = .nth 0
  · rcases replaceBy_of_idle (Utf8.encode text) replacement hidle with ⟨hreturn, hnone⟩
    unfold selected
    rw [hreturn, (hnone _).1]
    exact ⟨_, rfl, rfl, List.append_nil _⟩
  · push Not at hidle
    rcases hidle with ⟨hempty, hmode⟩
    have hsome : (replaceBy r (Utf8.encode text) replacement mode).isSome = true := by
      rw [replaceBy_of_busy hempty hmode]
      apply loop_isSome hengine _ _ _ _ (awaits_start hmode)
      · exact Utf8.isCharBoundary_encode text
      · rw [after_zero, ← foundBy_of_busy hempty]
        exact hclean.1
      · rw [after_zero, ← foundBy_of_busy hempty]
        exact hclean.2
    rcases Option.isSome_iff_exists.mp hsome with ⟨pieces, hreturn⟩
    have hrun := copies_of_replaceBy hengine hempty hmode hreturn
    exact ⟨pieces, hreturn, hrun.listed, hrun.lossless hclean.1⟩

end Outcome

/-- **Replacing touches only matches.**  For every engine, subject, replacement and mode, the
    calls return and replace the selected matches and nothing else exactly when `^` makes no
    difference to what is selected, and no character is lost or cut. -/
theorem replace_touches_only_iff (r : Regex) (hengine : r.inner.InRange)
    (text replacement : List Char) (mode : ReplaceMode) :
    TouchesOnlyMatches r (Utf8.encode text) replacement mode ↔
      selected r (leftmostMatch r (Utf8.encode text)) (Utf8.encode text) replacement mode =
          selected r (matchFrom r.inner (Utf8.encode text)) (Utf8.encode text) replacement mode ∧
        Clean r (Utf8.encode text) replacement mode := by
  constructor
  · rintro ⟨pieces, hreturn, hlisted, htext⟩
    by_cases hidle : r.empty = true ∨ mode = .nth 0
    · have hnone := (replaceBy_of_idle (Utf8.encode text) replacement hidle).2
      unfold Clean selected
      rw [(hnone _).1, (hnone _).1, (hnone _).2]
      exact ⟨rfl, rfl, rfl⟩
    · push Not at hidle
      have hrun := copies_of_replaceBy hengine hidle.1 hidle.2 hreturn
      exact ⟨hrun.listed.symm.trans hlisted, hrun.exact (congrArg List.length htext),
        hrun.passedCleanly⟩
  · rintro ⟨hselected, hclean⟩
    rcases replaceBy_of_clean hengine hclean with ⟨pieces, hreturn, hlisted, htext⟩
    exact ⟨pieces, hreturn, hlisted.trans hselected, htext⟩

/-! ## 7. Engines that find leftmost matches -/

/-- The captures of a match, for the text that the slice from an offset on was cut from. -/
def Captures.move (start : Nat) (caps : Captures) : Captures where
  whole := caps.whole.map fun range => (start + range.1, start + range.2)
  groups := caps.groups.map (·.map fun range => (start + range.1, start + range.2))

/-- `matches` reports what `matches_exact` reports at the first place where there is a match. -/
structure Engine.Leftmost (inner : Engine) : Prop where
  inRange : inner.InRange
  first : ∀ input, inner.matchesFirst input =
    (anchoredReport inner input input.length).map fun report => report.2.move report.1

/-- `c*` for a character. -/
def literalStar (c : Char) : Engine where
  matchesFirst input := some ⟨some (0, (input.takeWhile (· == c)).length), []⟩
  matchesExact _ input := some ⟨some (0, (input.takeWhile (· == c)).length), []⟩

/-- `^c` for a character. -/
def literalAtStart (c : Char) : Engine where
  matchesFirst input := if input.head? = some c then some ⟨some (0, 1), []⟩ else none
  matchesExact noStart input :=
    if noStart = false ∧ input.head? = some c then some ⟨some (0, 1), []⟩ else none

theorem literalStar_leftmost (c : Char) : (literalStar c).Leftmost := by
  have hreport : ∀ {input caps}, ((literalStar c).matchesFirst input = some caps ∨
      ∃ noStart, (literalStar c).matchesExact noStart input = some caps) →
        caps = ⟨some (0, (input.takeWhile (· == c)).length), []⟩ := by
    rintro input caps (hfirst | ⟨noStart, hexact⟩)
    · exact (Option.some.inj hfirst).symm
    · exact (Option.some.inj hexact).symm
  constructor
  · constructor
    · intro input caps s t h hwhole
      rw [hreport h] at hwhole
      cases hwhole
      exact ⟨Nat.zero_le _, (List.takeWhile_prefix _).length_le⟩
    · intro input caps s t a b h hwhole hmem
      rw [hreport h] at hmem
      cases hmem
  · intro input
    rw [anchoredReport, List.range_succ_eq_map, List.findSome?_cons]
    simp [literalStar, Captures.move, Option.filter]

theorem literalAtStart_leftmost (c : Char) : (literalAtStart c).Leftmost := by
  have hreport : ∀ {input caps}, ((literalAtStart c).matchesFirst input = some caps ∨
      ∃ noStart, (literalAtStart c).matchesExact noStart input = some caps) →
        input.head? = some c ∧ caps = ⟨some (0, 1), []⟩ := by
    rintro input caps (hfirst | ⟨noStart, hexact⟩)
    · change (if _ then _ else _) = _ at hfirst
      split at hfirst
      · next hhead => exact ⟨hhead, (Option.some.inj hfirst).symm⟩
      · cases hfirst
    · change (if _ then _ else _) = _ at hexact
      split at hexact
      · next hhead => exact ⟨hhead.2, (Option.some.inj hexact).symm⟩
      · cases hexact
  constructor
  · constructor
    · intro input caps s t h hwhole
      rcases hreport h with ⟨hhead, rfl⟩
      cases hwhole
      cases input with
      | nil => cases hhead
      | cons d input => exact ⟨Nat.zero_le _, Nat.succ_le_succ (Nat.zero_le _)⟩
    · intro input caps s t a b h hwhole hmem
      rw [(hreport h).2] at hmem
      cases hmem
  · intro input
    have hlater : ∀ start ∈ (List.range (min input.length input.length)).map Nat.succ,
        (((literalAtStart c).matchesExact (start != 0) (input.drop start)).filter
          (·.whole.isSome)).map (start, ·) = none := by
      intro start hstart
      rcases List.mem_map.mp hstart with ⟨k, -, rfl⟩
      rfl
    rw [anchoredReport, List.range_succ_eq_map, List.findSome?_cons,
      List.findSome?_eq_none_iff.mpr hlater]
    by_cases hhead : input.head? = some c <;>
      simp [literalAtStart, Captures.move, Option.filter, hhead]

theorem group_replaced_cleanly :
    TouchesOnlyMatches ⟨literalGroup 'b', false⟩ (Utf8.encode ['a', 'b', 'c']) ['-'] .all := by
  refine (replace_touches_only_iff ⟨literalGroup 'b', false⟩ (literalGroup_inRange 'b')
    ['a', 'b', 'c'] ['-'] .all).mpr ?_
  decide

/-- Replacing every `x*` loses the letter of `a` and panics on `é`, and replacing every `^a`
    replaces both letters of `aa`. -/
theorem replacement_beyond_matches :
    ((literalStar 'x').Leftmost ∧
      ¬ TouchesOnlyMatches ⟨literalStar 'x', false⟩ (Utf8.encode ['a']) ['-'] .all ∧
        (replaceAll ⟨literalStar 'x', false⟩ (Utf8.encode ['a']) ['-']).map outputText =
          some ['-', '-'] ∧
        replaceAll ⟨literalStar 'x', false⟩ (Utf8.encode ['é']) ['-'] = none) ∧
      (literalAtStart 'a').Leftmost ∧
        ¬ TouchesOnlyMatches ⟨literalAtStart 'a', false⟩ (Utf8.encode ['a', 'a']) ['b'] .all ∧
        (replaceAll ⟨literalAtStart 'a', false⟩ (Utf8.encode ['a', 'a']) ['b']).map outputText =
          some ['b', 'b'] := by
  refine ⟨⟨literalStar_leftmost 'x', ?_, by decide, by decide⟩, literalAtStart_leftmost 'a', ?_,
    by decide⟩
  · rintro ⟨pieces, hreturn, -, htext⟩
    have hpieces : replaceBy ⟨literalStar 'x', false⟩ (Utf8.encode ['a']) ['-'] .all =
        some [.copied [], .replaced 0 0 ['-'], .copied [], .replaced 1 1 ['-']] := by decide
    rw [hpieces] at hreturn
    cases hreturn
    revert htext
    decide
  · rintro ⟨pieces, hreturn, hlisted, -⟩
    have hpieces : replaceBy ⟨literalAtStart 'a', false⟩ (Utf8.encode ['a', 'a']) ['b'] .all =
        some [.copied [], .replaced 0 1 ['b'], .copied [], .replaced 1 2 ['b'], .copied []] := by
      decide
    rw [hpieces] at hreturn
    cases hreturn
    revert hlisted
    decide

end Wasmsh.PosixRegex

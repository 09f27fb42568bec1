import Mathlib.Data.List.Basic
import Wasmsh.Library.CharBoundaries

/-!
# POSIX regular expressions

`wasmsh-utils/src/regex_posix.rs`, the matcher of `sed` and `grep`.  The engine of the
`posix-regex` crate is a parameter: what it reports for the bytes it is given.  Texts are
lists of bytes, places in them byte offsets; a slice of a text panics where an offset is
inside a character.
-/

namespace Wasmsh.PosixRegex

/-! ## 1. The engine -/

/-- What the engine reports: the whole match and the groups, as ranges of offsets. -/
structure Captures where
  whole : Option (Nat × Nat)
  groups : List (Option (Nat × Nat))
  deriving DecidableEq, Repr

/-- A compiled pattern of `posix-regex`: the first match of `matches`, and
    `matches_exact`, which is given whether `^` may not match (`no_start`). -/
structure Engine where
  matchesFirst : List Char → Option Captures
  matchesExact : Bool → List Char → Option Captures

/-- `Regex`. -/
structure Regex where
  inner : Engine
  empty : Bool

/-! ## 2. Searching -/

/-- The captures, and the start and the end of the match. -/
abbrev Found := Captures × Nat × Nat

/-- The report for the slice from an offset on, with the whole match moved by the offset. -/
def rewriteWhole (start : Nat) (caps : Captures) : Option Found :=
  caps.whole.map fun range =>
    ({ caps with whole := some (start + range.1, start + range.2) },
      start + range.1, start + range.2)

/-- `anchored_search`. -/
def anchoredSearch (inner : Engine) (input : List Char) (limit : Nat) : Option Found :=
  (List.range (min limit input.length + 1)).findSome? fun start =>
    (inner.matchesExact (start != 0) (input.drop start)).bind (rewriteWhole start)

/-- `leftmost_match`, for a cursor inside the subject. -/
def leftmostMatch (r : Regex) (subject : List Char) (cursor : Nat) : Option Found :=
  if r.empty then some (⟨some (0, 0), []⟩, 0, 0)
  else
    let input := subject.drop cursor
    match (r.inner.matchesFirst input).bind fun caps => caps.whole.map (caps, ·) with
    | some (caps, relStart, relEnd) =>
      if relStart = 0 then some (caps, relStart, relEnd)
      else
        match anchoredSearch r.inner input relStart with
        | some found => some found
        | none => some (caps, relStart, relEnd)
    | none => anchoredSearch r.inner input input.length

/-- `find`. -/
def find (r : Regex) (subject : List Char) : Option (Nat × Nat) :=
  (leftmostMatch r subject 0).map (·.2)

/-! ## 3. Replacements -/

/-- `&text[start..stop]`; no value is a panic. -/
def sliceStr (text : List Char) (start stop : Nat) : Option (List Char) :=
  if start ≤ stop ∧ stop ≤ text.length ∧ Utf8.isCharBoundary (text.drop start) = true ∧
      Utf8.isCharBoundary (text.drop stop) = true then
    some ((text.drop start).take (stop - start))
  else none

/-- `caps.get(idx)`. -/
def Captures.get (caps : Captures) : Nat → Option (Nat × Nat)
  | 0 => caps.whole
  | i + 1 => (caps.groups[i]?).join

/-- `push_capture`: what is pushed. -/
def pushCapture (subject : List Char) (caps : Captures) (idx : Nat) : Option (List Char) :=
  match caps.get idx with
  | some (start, stop) => sliceStr subject start stop
  | none => some []

/-- What `append_replacement_backslash` makes of the character after the backslash, if that
    is no digit. -/
def escapedChar (c : Char) : Char :=
  if c = 'n' then '\n' else if c = 't' then '\t' else if c = 'r' then '\r' else c

/-- `append_replacement`, with `append_replacement_backslash`: what is appended. -/
def appendReplacement (subject : List Char) (caps : Captures) : List Char → Option (List Char)
  | [] => some []
  | ['\\'] => some ['\\']
  | '\\' :: c :: template =>
    (if c.isDigit then pushCapture subject caps (c.toNat - '0'.toNat)
      else some (Utf8.encodeChar (escapedChar c))).bind fun text =>
        (appendReplacement subject caps template).map (text ++ ·)
  | '&' :: template =>
    (pushCapture subject caps 0).bind fun text =>
      (appendReplacement subject caps template).map (text ++ ·)
  | c :: template => (appendReplacement subject caps template).map (Utf8.encodeChar c ++ ·)

/-! ## 4. Where the groups are -/

/-- The report behind the result of `anchored_search`, and the offset of the slice that it
    is for. -/
def anchoredReport (inner : Engine) (input : List Char) (limit : Nat) : Option (Nat × Captures) :=
  (List.range (min limit input.length + 1)).findSome? fun start =>
    ((inner.matchesExact (start != 0) (input.drop start)).filter (·.whole.isSome)).map (start, ·)

/-- The report behind the result of `leftmost_match`, and the offset from the cursor of the
    slice that it is for. -/
def leftmostReport (r : Regex) (subject : List Char) (cursor : Nat) : Option (Nat × Captures) :=
  if r.empty then some (0, ⟨some (0, 0), []⟩)
  else
    let input := subject.drop cursor
    match (r.inner.matchesFirst input).bind fun caps => caps.whole.map (caps, ·) with
    | some (caps, relStart, _) =>
      if relStart = 0 then some (0, caps)
      else
        match anchoredReport r.inner input relStart with
        | some report => some report
        | none => some (0, caps)
    | none => anchoredReport r.inner input input.length

/-- What the engine promises: a match is in the slice, and its groups are in the match. -/
structure Engine.InRange (inner : Engine) : Prop where
  whole : ∀ {input caps s t}, (inner.matchesFirst input = some caps ∨
    ∃ noStart, inner.matchesExact noStart input = some caps) → caps.whole = some (s, t) →
      s ≤ t ∧ t ≤ input.length
  groups : ∀ {input caps s t a b}, (inner.matchesFirst input = some caps ∨
    ∃ noStart, inner.matchesExact noStart input = some caps) → caps.whole = some (s, t) →
      some (a, b) ∈ caps.groups → s ≤ a ∧ a ≤ b ∧ b ≤ t

/-- Every group that is returned lies inside the match and stands where the engine found it,
    and `push_capture` inserts its text there. -/
def GroupsPoint (r : Regex) (subject : List Char) (cursor : Nat) : Prop :=
  ∀ caps s t start reported, leftmostMatch r subject cursor = some (caps, s, t) →
    leftmostReport r subject cursor = some (start, reported) →
      ∀ i a b, caps.groups[i]? = some (some (a, b)) → s ≤ a ∧ a ≤ b ∧ b ≤ t ∧
        ∃ a' b', reported.groups[i]? = some (some (a', b')) ∧ a = start + a' ∧ b = start + b' ∧
          pushCapture (subject.drop cursor) caps (i + 1) =
            sliceStr ((subject.drop cursor).drop start) a' b'

theorem anchoredSearch_eq (inner : Engine) (input : List Char) (limit : Nat) :
    anchoredSearch inner input limit =
      (anchoredReport inner input limit).bind fun report => rewriteWhole report.1 report.2 := by
  unfold anchoredSearch anchoredReport
  induction List.range (min limit input.length + 1) with
  | nil => rfl
  | cons start starts ih =>
    rw [List.findSome?_cons, List.findSome?_cons, ih]
    cases inner.matchesExact (start != 0) (input.drop start) with
    | none => rfl
    | some caps =>
      cases hwhole : caps.whole with
      | none => simp [rewriteWhole, Option.filter, hwhole]
      | some range => simp [rewriteWhole, Option.filter, hwhole]

theorem anchoredReport_spec {inner : Engine} {input : List Char} {limit : Nat}
    {report : Nat × Captures} (h : anchoredReport inner input limit = some report) :
    report.2.whole.isSome = true ∧
      ∃ noStart, inner.matchesExact noStart (input.drop report.1) = some report.2 := by
  rcases List.exists_of_findSome?_eq_some h with ⟨start, -, hstart⟩
  rcases Option.map_eq_some_iff.mp hstart with ⟨caps, hcaps, rfl⟩
  rcases Option.filter_eq_some_iff.mp hcaps with ⟨hexact, hsome⟩
  exact ⟨hsome, _, hexact⟩

/-- `leftmost_match` returns the report with its whole match moved, and only that. -/
theorem leftmostMatch_eq (r : Regex) (subject : List Char) (cursor : Nat) :
    leftmostMatch r subject cursor =
      (leftmostReport r subject cursor).bind fun report => rewriteWhole report.1 report.2 := by
  unfold leftmostMatch leftmostReport
  split
  · rfl
  · dsimp only
    cases hfirst : (r.inner.matchesFirst (subject.drop cursor)).bind fun caps =>
        caps.whole.map (caps, ·) with
    | none => exact anchoredSearch_eq _ _ _
    | some found =>
      rcases found with ⟨caps, relStart, relEnd⟩
      dsimp only
      have hwhole : caps.whole = some (relStart, relEnd) := by
        rcases Option.bind_eq_some_iff.mp hfirst with ⟨caps', -, hmap⟩
        rcases Option.map_eq_some_iff.mp hmap with ⟨range, hrange, hpair⟩
        cases hpair
        exact hrange
      have hself : rewriteWhole 0 caps = some (caps, relStart, relEnd) := by
        rcases caps with ⟨whole, groups⟩
        cases hwhole
        simp [rewriteWhole]
      split
      · exact hself.symm
      · rw [anchoredSearch_eq]
        cases hreport : anchoredReport r.inner (subject.drop cursor) relStart with
        | none => exact hself.symm
        | some report =>
          rcases Option.isSome_iff_exists.mp (anchoredReport_spec hreport).1 with ⟨range, hrange⟩
          simp [rewriteWhole, hrange]

theorem rewriteWhole_eq_some {start : Nat} {reported caps : Captures} {s t : Nat}
    (h : rewriteWhole start reported = some (caps, s, t)) :
    ∃ s' t', reported.whole = some (s', t') ∧ s = start + s' ∧ t = start + t' ∧
      caps = ⟨some (s, t), reported.groups⟩ := by
  rcases Option.map_eq_some_iff.mp h with ⟨range, hrange, hpair⟩
  cases hpair
  exact ⟨range.1, range.2, hrange, rfl, rfl, rfl⟩

/-- A report is one of the engine's, or that of the empty pattern. -/
theorem leftmostReport_spec {r : Regex} {subject : List Char} {cursor start : Nat}
    {reported : Captures} (h : leftmostReport r subject cursor = some (start, reported)) :
    reported.whole.isSome = true ∧ (reported.groups = [] ∨ ∃ input,
      r.inner.matchesFirst input = some reported ∨
        ∃ noStart, r.inner.matchesExact noStart input = some reported) := by
  have hanchored : ∀ {input limit}, anchoredReport r.inner input limit = some (start, reported) →
      reported.whole.isSome = true ∧ (reported.groups = [] ∨ ∃ input,
        r.inner.matchesFirst input = some reported ∨
          ∃ noStart, r.inner.matchesExact noStart input = some reported) := by
    intro input limit hreport
    rcases anchoredReport_spec hreport with ⟨hsome, hexact⟩
    exact ⟨hsome, .inr ⟨_, .inr hexact⟩⟩
  unfold leftmostReport at h
  split at h
  · cases h
    exact ⟨rfl, .inl rfl⟩
  · dsimp only at h
    split at h
    · next caps relStart relEnd hfirst =>
      rcases Option.bind_eq_some_iff.mp hfirst with ⟨caps', hcaps, hmap⟩
      rcases Option.map_eq_some_iff.mp hmap with ⟨range, hrange, hpair⟩
      cases hpair
      have hself : caps.whole.isSome = true ∧ (caps.groups = [] ∨ ∃ input,
          r.inner.matchesFirst input = some caps ∨
            ∃ noStart, r.inner.matchesExact noStart input = some caps) :=
        ⟨Option.isSome_iff_exists.mpr ⟨_, hrange⟩, .inr ⟨_, .inl hcaps⟩⟩
      split at h
      · cases h
        exact hself
      · split at h
        · next report hreport =>
          cases h
          exact hanchored hreport
        · cases h
          exact hself
    · exact hanchored h

/-- **Where captures point.**  For every engine, subject and cursor: the groups that
    `leftmost_match` returns are where the engine found them exactly when the engine reported
    the match for the slice that starts at the cursor, or reported no group. -/
theorem groups_point_iff (r : Regex) (hengine : r.inner.InRange) (subject : List Char)
    (cursor : Nat) : GroupsPoint r subject cursor ↔
      ∀ start reported, leftmostReport r subject cursor = some (start, reported) →
        start = 0 ∨ ∀ group ∈ reported.groups, group = none := by
  constructor
  · intro hpoint start reported hreport
    by_cases hstart : start = 0
    · exact .inl hstart
    right
    intro group hgroup
    cases group with
    | none => rfl
    | some range =>
      rcases range with ⟨a, b⟩
      rcases Option.isSome_iff_exists.mp (leftmostReport_spec hreport).1 with ⟨⟨s, t⟩, hwhole⟩
      have hmatch : leftmostMatch r subject cursor =
          some (⟨some (start + s, start + t), reported.groups⟩, start + s, start + t) := by
        rw [leftmostMatch_eq, hreport, Option.bind_some, rewriteWhole, hwhole]
        rfl
      rcases List.getElem?_of_mem hgroup with ⟨i, hi⟩
      rcases hpoint _ _ _ _ _ hmatch hreport i a b hi with ⟨-, -, -, a', b', hi', ha, -, -⟩
      rw [hi] at hi'
      cases hi'
      exact absurd (Nat.add_eq_right.mp ha.symm) hstart
  · intro hcond caps s t start reported hmatch hreport i a b hi
    rw [leftmostMatch_eq, hreport, Option.bind_some] at hmatch
    rcases rewriteWhole_eq_some hmatch with ⟨s', t', hwhole, rfl, rfl, rfl⟩
    rcases hcond start reported hreport with rfl | hnone
    · have hmem : some (a, b) ∈ reported.groups := List.mem_of_getElem? hi
      rcases (leftmostReport_spec hreport).2 with hnil | ⟨input, hreported⟩
      · rw [hnil] at hmem
        cases hmem
      · rcases hengine.groups hreported hwhole hmem with ⟨hs, hab, hb⟩
        rw [Nat.zero_add, Nat.zero_add]
        refine ⟨hs, hab, hb, a, b, hi, (Nat.zero_add a).symm, (Nat.zero_add b).symm, ?_⟩
        have hget : Captures.get ⟨some (0 + s', 0 + t'), reported.groups⟩ (i + 1) = some (a, b) := by
          show (reported.groups[i]?).join = some (a, b)
          rw [hi]
          rfl
        rw [pushCapture, ← Nat.zero_add s', ← Nat.zero_add t', hget, List.drop_zero]
    · cases hnone _ (List.mem_of_getElem? hi)

/-- `\(c\)` for a character. -/
def literalGroup (c : Char) : Engine where
  matchesFirst input :=
    ((List.range input.length).find? fun i => input[i]? == some c).map fun i =>
      ⟨some (i, i + 1), [some (i, i + 1)]⟩
  matchesExact _ input :=
    if input.head? = some c then some ⟨some (0, 1), [some (0, 1)]⟩ else none

theorem literalGroup_inRange (c : Char) : (literalGroup c).InRange := by
  have hreport : ∀ {input caps}, ((literalGroup c).matchesFirst input = some caps ∨
      ∃ noStart, (literalGroup c).matchesExact noStart input = some caps) →
        ∃ i < input.length, caps = ⟨some (i, i + 1), [some (i, i + 1)]⟩ := by
    rintro input caps (hfirst | ⟨noStart, hexact⟩)
    · rcases Option.map_eq_some_iff.mp hfirst with ⟨i, hi, rfl⟩
      exact ⟨i, List.mem_range.mp (List.mem_of_find?_eq_some hi), rfl⟩
    · change (if input.head? = some c then _ else _) = _ at hexact
      split at hexact
      · next hhead =>
        cases hexact
        cases input with
        | nil => cases hhead
        | cons d input => exact ⟨0, Nat.succ_pos _, rfl⟩
      · cases hexact
  constructor
  · intro input caps s t h hwhole
    rcases hreport h with ⟨i, hi, rfl⟩
    cases hwhole
    exact ⟨Nat.le_succ _, hi⟩
  · intro input caps s t a b h hwhole hmem
    rcases hreport h with ⟨i, -, rfl⟩
    cases hwhole
    cases List.mem_singleton.mp hmem
    exact ⟨Nat.le_refl _, Nat.le_succ _, Nat.le_refl _⟩

theorem groups_point_at_start : GroupsPoint ⟨literalGroup 'b', false⟩ ['b', 'c'] 0 := by
  refine (groups_point_iff ⟨literalGroup 'b', false⟩ (literalGroup_inRange 'b') _ 0).mpr ?_
  intro start reported hreport
  have hstart : leftmostReport ⟨literalGroup 'b', false⟩ ['b', 'c'] 0 =
      some (0, ⟨some (0, 1), [some (0, 1)]⟩) := by decide
  rw [hstart] at hreport
  cases hreport
  exact .inl rfl

/-- In `ab` the group of `\(b\)` is the `b`, and `\1` inserts the `a`. -/
theorem group_points_before_match :
    ¬ GroupsPoint ⟨literalGroup 'b', false⟩ ['a', 'b'] 0 ∧
      (leftmostMatch ⟨literalGroup 'b', false⟩ ['a', 'b'] 0).bind
        (fun found => appendReplacement ['a', 'b'] found.1 ['\\', '1']) = some ['a'] := by
  constructor
  · intro hpoint
    have hmatch : leftmostMatch ⟨literalGroup 'b', false⟩ ['a', 'b'] 0 =
        some (⟨some (1, 2), [some (0, 1)]⟩, 1, 2) := by decide
    have hreport : leftmostReport ⟨literalGroup 'b', false⟩ ['a', 'b'] 0 =
        some (1, ⟨some (0, 1), [some (0, 1)]⟩) := by decide
    exact absurd (hpoint _ _ _ _ _ hmatch hreport 0 0 1 rfl).1 (by decide)
  · decide

end Wasmsh.PosixRegex

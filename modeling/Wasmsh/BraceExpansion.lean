import Wasmsh.BraceGroups

/-!
# Brace expansion against the groups of the word

`expand_braces` gives between one word and `MAX_BRACE_ITEMS`, and it gives what the groups of
the word stand for when it meets them in turn: the first pair of the word is a group, and so
is the first pair of every word that comes of it, until no group is left.  It stops too early
at a first pair that is none, at a brace that is never closed, and at a range whose step has
the sign of the other direction; and it cuts a list at commas that a backslash protects.
-/

namespace Wasmsh.BraceGroups

open Braces Brackets

variable {t : Tok} {ts inner behind before item : List Tok} {items : List (List Tok)}
variable {word : List Char} {esc esc' : Bool} {cs : List Char} {r : BraceRange}

/-! ## 1. Backslashes -/

/-- The tokens of a text that starts, and ends, directly behind a backslash or not. -/
inductive Runs : Bool → List Tok → Bool → Prop
  | nil (esc : Bool) : Runs esc [] esc
  | cons {esc esc' : Bool} {c : Char} {ts : List Tok} : Runs (c == '\\') ts esc' →
      Runs esc ((c, !esc) :: ts) esc'

theorem runs_marks (esc : Bool) (text : List Char) : ∃ esc', Runs esc (marks esc text) esc' := by
  induction text generalizing esc with
  | nil => exact ⟨esc, .nil esc⟩
  | cons c cs ih =>
    rcases ih (c == '\\') with ⟨esc', h⟩
    exact ⟨esc', .cons h⟩

theorem Runs.marks_eq (h : Runs esc ts esc') : marks esc (chars ts) = ts := by
  induction h with
  | nil => rfl
  | cons _ ih => rw [chars_cons, marks, ih]

theorem Runs.append {us : List Tok} {esc'' : Bool} (h : Runs esc us esc')
    (h' : Runs esc' ts esc'') : Runs esc (us ++ ts) esc'' := by
  induction h with
  | nil => exact h'
  | cons _ ih => exact .cons (ih h')

/-- A token that counts parts a text in two. -/
theorem Runs.split {us : List Tok} (h : Runs esc (us ++ t :: ts) esc') (ht : t.2 = true)
    (hslash : t.1 ≠ '\\') : Runs esc us false ∧ Runs false ts esc' := by
  induction us generalizing esc with
  | nil =>
    cases h with
    | @cons _ _ c _ h =>
      have hesc : esc = false := by simpa using ht
      have hc : (c == '\\') = false := by simpa using hslash
      rw [hc] at h
      exact ⟨hesc ▸ .nil esc, h⟩
  | cons u us ih =>
    cases h with
    | cons h => exact ⟨.cons (ih h).1, (ih h).2⟩

theorem runs_active {text : List Char} (h : '\\' ∉ text) : Runs false (active text) false := by
  induction text with
  | nil => exact .nil false
  | cons c cs ih =>
    simp only [List.mem_cons, not_or] at h
    have hc : (c == '\\') = false := by simpa using Ne.symm h.1
    exact .cons (hc ▸ ih h.2)

/-- An item neither starts nor ends behind a backslash. -/
theorem runs_item (hinner : Runs false inner false) (h : groupItems inner = some items)
    (hitem : item ∈ items) : Runs false item false := by
  rcases mem_groupItems h hitem with ⟨r, text, htext, rfl⟩ | hpiece
  · exact runs_active (not_mem_texts htext (by decide) (by decide))
  · refine forall_mem_pieces (P := fun us => Runs false us false) ?_ hinner 0 item hpiece
    intro us vs h
    exact h.split rfl (by decide)

/-- The word in which an item stands for the group is read like its parts. -/
theorem runs_replace (hword : Runs false (before ++ braces.left :: (inner ++ braces.right :: behind)) esc)
    (h : groupItems inner = some items) (hitem : item ∈ items) :
    Runs false (before ++ (item ++ behind)) esc := by
  rcases hword.split rfl (by decide) with ⟨hbefore, hrest⟩
  rcases hrest.split rfl (by decide) with ⟨hinner, hbehind⟩
  exact hbefore.append ((runs_item hinner h hitem).append hbehind)

/-! ## 2. The first pair -/

theorem findBracePairFrom_succ (prev : Option Char) (start d pos : Nat) (word : List Char) :
    findBracePairFrom prev start (d + 1) pos word =
      (closeOf braces d (marks (prev == some '\\') word)).map fun e =>
        (start, pos + e.1.length) := by
  induction word generalizing prev d pos with
  | nil => simp [findBracePairFrom, marks]
  | cons c cs ih =>
    have hlater : ∀ k, findBracePairFrom (some c) start (k + 1) (pos + 1) cs =
        ((closeOf braces k (marks (c == '\\') cs)).map fun e =>
          ((c, !(prev == some '\\')) :: e.1, e.2)).map fun e => (start, pos + e.1.length) := by
      intro k
      rw [ih, Option.map_map]
      congr 1
      funext e
      simp [Nat.add_comm 1, Nat.add_assoc]
    rw [marks]
    by_cases hescape : prev = some '\\'
    · have hflag : (!(prev == some '\\')) = false := by simp [hescape]
      rw [findBracePairFrom, if_pos hescape, hlater, hflag,
        closeOf_plain _ _ (by simp [braces]) (by simp [braces])]
    · have hflag : (!(prev == some '\\')) = true := by simp [hescape]
      rw [hflag] at hlater ⊢
      rw [findBracePairFrom, if_neg hescape]
      by_cases hopen : c = '{'
      · subst hopen
        rw [if_pos rfl, if_neg (Nat.succ_ne_zero d), hlater]
        exact (congrArg _ (closeOf_left (B := braces) d _)).symm
      rw [if_neg hopen]
      by_cases hclose : c = '}'
      · subst hclose
        rw [if_pos ⟨rfl, Nat.succ_pos d⟩]
        cases d with
        | zero =>
          have hright : closeOf braces 0 (('}', true) :: marks ('}' == '\\') cs) =
            some ([], marks ('}' == '\\') cs) := closeOf_right_zero (B := braces) _
          rw [if_pos rfl, hright]
          rfl
        | succ d =>
          rw [if_neg (by omega), Nat.add_sub_cancel, hlater]
          exact (congrArg _ (closeOf_right_succ (B := braces) d _)).symm
      · rw [if_neg (fun h => hclose h.1), hlater,
          closeOf_plain _ _ (by simp [braces, hopen]) (by simp [braces, hclose])]

/-- Outside all pairs a character that opens none is passed. -/
theorem findBracePairFrom_pass {prev : Option Char} {c : Char}
    (h : (c, !(prev == some '\\')) ≠ braces.left) (start pos : Nat) (cs : List Char) :
    findBracePairFrom prev start 0 pos (c :: cs) = findBracePairFrom (some c) start 0 (pos + 1) cs := by
  rw [findBracePairFrom]
  by_cases hescape : prev = some '\\'
  · rw [if_pos hescape]
  · have hopen : c ≠ '{' := by
      rintro rfl
      exact h (by simp [braces, hescape])
    rw [if_neg hescape, if_neg hopen, if_neg (fun h => Nat.lt_irrefl 0 h.2)]

theorem findBracePairFrom_none (prev : Option Char) (start pos : Nat) (word : List Char)
    (h : braces.left ∉ marks (prev == some '\\') word) :
    findBracePairFrom prev start 0 pos word = none := by
  induction word generalizing prev pos with
  | nil => rfl
  | cons c cs ih =>
    rw [marks, List.mem_cons, not_or] at h
    rw [findBracePairFrom_pass (Ne.symm h.1)]
    exact ih (some c) (pos + 1) h.2

theorem findBracePairFrom_first {before rest : List Tok} (hbefore : braces.left ∉ before)
    (prev : Option Char) (start pos : Nat) (word : List Char)
    (h : marks (prev == some '\\') word = before ++ braces.left :: rest) :
    findBracePairFrom prev start 0 pos word = (closeOf braces 0 rest).map fun e =>
      (pos + before.length, pos + before.length + 1 + e.1.length) := by
  induction before generalizing prev pos word with
  | nil =>
    cases word with
    | nil => cases h
    | cons c cs =>
      rw [marks, List.nil_append, List.cons.injEq] at h
      rcases h with ⟨hc, rfl⟩
      obtain ⟨rfl, hflag⟩ := Prod.mk.inj hc
      have hescape : prev ≠ some '\\' := by simpa using hflag
      rw [findBracePairFrom, if_neg hescape, if_pos rfl, if_pos rfl, findBracePairFrom_succ]
      rfl
  | cons b before ih =>
    cases word with
    | nil => cases h
    | cons c cs =>
      rw [marks, List.cons_append, List.cons.injEq] at h
      rcases h with ⟨rfl, hrest⟩
      rw [List.mem_cons, not_or] at hbefore
      rw [findBracePairFrom_pass (Ne.symm hbefore.1), ih hbefore.2 (some c) (pos + 1) cs hrest]
      congr 1
      funext e
      simp only [List.length_cons, Prod.mk.injEq]
      omega

theorem itemsOn_id (inner : List Char) : itemsOn id id inner = braceItems inner := by
  have hitems := @map_itemsOn Char id id (fun _ => rfl) inner
  simpa only [List.map_id_fun, id_eq, List.map_id_fun', Option.map_id_fun'] using hitems

/-- **What `try_expand_brace_pair` opens**, for a word whose first pair is known. -/
theorem openPair_pair (hbefore : braces.left ∉ before) (hinner : Balanced braces inner)
    (hword : Runs false (before ++ braces.left :: (inner ++ braces.right :: behind)) esc) :
    openPair id id (chars (before ++ braces.left :: (inner ++ braces.right :: behind))) =
      (braceItems (chars inner)).map fun items =>
        items.map fun item => chars before ++ (item ++ chars behind) := by
  have hfind := findBracePairFrom_first hbefore none 0 0 _ hword.marks_eq
  rw [closeOf_balanced hinner, Option.map_some] at hfind
  have htext : chars (before ++ braces.left :: (inner ++ braces.right :: behind)) =
      chars before ++ '{' :: (chars inner ++ '}' :: chars behind) := by
    simp [braces]
  rw [htext] at hfind ⊢
  have hinside : ((chars before ++ '{' :: (chars inner ++ '}' :: chars behind)).drop
      (before.length + 1)).take inner.length = chars inner := by
    rw [← List.singleton_append, ← List.append_assoc, List.drop_left' (by simp),
      List.take_left' (by simp)]
  have hbehind : (chars before ++ '{' :: (chars inner ++ '}' :: chars behind)).drop
      (before.length + 1 + inner.length + 1) = chars behind := by
    rw [← List.singleton_append (x := '{'), ← List.singleton_append (x := '}'),
      ← List.append_assoc, ← List.append_assoc, ← List.append_assoc, List.drop_left' (by simp; omega)]
  have htake : (chars before ++ '{' :: (chars inner ++ '}' :: chars behind)).take before.length =
      chars before := List.take_left' (by simp)
  unfold openPair
  rw [List.map_id, findBracePair, hfind]
  dsimp only
  rw [show 0 + before.length + 1 + inner.length - (0 + before.length) - 1 = inner.length by omega,
    Nat.zero_add, hinside, hbehind, htake, itemsOn_id]
  simp only [List.append_assoc]

theorem openPair_of_not_mem (h : braces.left ∉ ts) (hword : Runs false ts esc) :
    openPair id id (chars ts) = none := by
  have hfind : findBracePairFrom none 0 0 0 (chars ts) = none :=
    findBracePairFrom_none none 0 0 (chars ts) (hword.marks_eq.symm ▸ h)
  rw [openPair, List.map_id, findBracePair, hfind]

theorem openPair_of_unclosed (hbefore : braces.left ∉ before) (hclose : closeOf braces 0 ts = none)
    (hword : Runs false (before ++ braces.left :: ts) esc) :
    openPair id id (chars (before ++ braces.left :: ts)) = none := by
  have hfind := findBracePairFrom_first hbefore none 0 0 _ hword.marks_eq
  rw [hclose, Option.map_none] at hfind
  rw [openPair, List.map_id, findBracePair, hfind]

/-! ## 3. Rounds -/

theorem expandBracesFrom_succ (n : Nat) (word : List Char) : expandBracesFrom (n + 1) word =
    match openPair id id word with
    | none => [word]
    | some words => (words.flatMap (expandBracesFrom n)).take maxBraceItems := by
  have hview : ∀ n word, expandOn id id n word = expandBracesFrom n word := by
    intro n word
    have h := @map_expandOn Char id id (fun _ => rfl) n word
    simpa only [List.map_id_fun, id_eq, List.map_id_fun'] using h
  rw [← hview, expandOn]
  cases openPair id id word with
  | none => rfl
  | some words =>
    dsimp only
    rw [List.flatMap_def, List.flatMap_def, List.map_congr_left fun w _ => hview n w]

theorem opened_openPair {words : List (List Char)} {w : List Char}
    (h : openPair id id word = some words) (hw : w ∈ words) : opened w < opened word := by
  have hlt := @openBraces_openPair Char id id id (fun _ h => h) (fun _ => rfl) _ _ _ h hw
  simpa only [openBraces, List.map_id, opened] using hlt

/-- A word has more rounds than it needs, each of which closes a brace. -/
theorem expandBracesFrom_eq {n m : Nat} (hn : opened word < n) (hm : opened word < m) :
    expandBracesFrom n word = expandBracesFrom m word := by
  induction n generalizing m word with
  | zero => exact absurd hn (Nat.not_lt_zero _)
  | succ n ih =>
    cases m with
    | zero => exact absurd hm (Nat.not_lt_zero _)
    | succ m =>
      rw [expandBracesFrom_succ, expandBracesFrom_succ]
      cases hopen : openPair id id word with
      | none => rfl
      | some words =>
        have hall : ∀ w ∈ words, expandBracesFrom n w = expandBracesFrom m w := by
          intro w hw
          have hlt := opened_openPair hopen hw
          exact ih (by omega) (by omega)
        dsimp only
        rw [List.flatMap_def, List.flatMap_def, List.map_congr_left hall]

theorem expandBraces_of_none (h : openPair id id word = none) : expandBraces word = [word] := by
  rw [expandBraces, expandBracesFrom_succ]
  simp only [h]

theorem expandBraces_of_some {words : List (List Char)} (h : openPair id id word = some words) :
    expandBraces word = (words.flatMap expandBraces).take maxBraceItems := by
  have hall : ∀ w ∈ words, expandBracesFrom (opened word) w = expandBraces w := by
    intro w hw
    exact expandBracesFrom_eq (opened_openPair h hw) (Nat.lt_succ_self _)
  rw [expandBraces, expandBracesFrom_succ]
  simp only [h]
  rw [List.flatMap_def, List.flatMap_def]
  exact congrArg (fun l => (List.flatten l).take maxBraceItems) (List.map_congr_left hall)

/-- The items `try_brace_range` makes of a range. -/
def rangeItems (r : BraceRange) : List (List Char) :=
  generateRange r.stop r.step r.width r.pad maxBraceItems r.start

theorem tryBraceRange_eq (inner : List Char) : tryBraceRange inner =
    (parseBraceRange inner).bind fun r =>
      if (rangeItems r).isEmpty then none else some (rangeItems r) := by
  unfold tryBraceRange parseBraceRange
  simp only [bind, Option.bind_assoc]
  rfl

theorem braceItems_of_range (h : parseBraceRange cs = some r)
    (hne : rangeItems r ≠ []) : braceItems cs = some (rangeItems r) := by
  have hempty : (rangeItems r).isEmpty = false := by simpa using hne
  rw [braceItems, tryBraceRange_eq, h, Option.bind_some, hempty]
  rfl

theorem braceItems_of_none (h : tryBraceRange cs = none) : braceItems cs =
    if 1 < (splitBraceItems 0 cs).length then some (splitBraceItems 0 cs) else none := by
  simp only [braceItems, h]

theorem tryBraceRange_ne_nil {texts : List (List Char)}
    (h : tryBraceRange cs = some texts) : texts ≠ [] := by
  rw [tryBraceRange_eq, Option.bind_eq_some_iff] at h
  rcases h with ⟨r, -, hr⟩
  split at hr
  · cases hr
  · next hempty =>
    cases hr
    intro hnil
    exact hempty (by rw [hnil]; rfl)

theorem braceItems_ne_nil {texts : List (List Char)}
    (h : braceItems cs = some texts) : texts ≠ [] := by
  cases hrange : tryBraceRange cs with
  | some items =>
    simp only [braceItems, hrange, Option.some.injEq] at h
    exact h ▸ tryBraceRange_ne_nil hrange
  | none =>
    rw [braceItems_of_none hrange] at h
    split at h
    · next hlen =>
      cases h
      exact List.length_pos_iff.mp (Nat.lt_trans Nat.zero_lt_one hlen)
    · cases h

/-- **Between one word and `MAX_BRACE_ITEMS`.** -/
theorem expandBraces_bounds (word : List Char) :
    1 ≤ (expandBraces word).length ∧ (expandBraces word).length ≤ maxBraceItems := by
  induction hn : opened word using Nat.strong_induction_on generalizing word with
  | _ n ih =>
  cases hopen : openPair id id word with
  | none =>
    rw [expandBraces_of_none hopen]
    exact ⟨Nat.le_refl 1, Nat.succ_le_succ (Nat.zero_le _)⟩
  | some words =>
    rw [expandBraces_of_some hopen, List.length_take]
    refine ⟨?_, Nat.min_le_left _ _⟩
    have hne : words ≠ [] := by
      unfold openPair at hopen
      split at hopen
      · cases hopen
      · rcases Option.map_eq_some_iff.mp hopen with ⟨items, hitems, rfl⟩
        rw [itemsOn_id] at hitems
        simpa using braceItems_ne_nil hitems
    rcases List.exists_mem_of_ne_nil words hne with ⟨w, hw⟩
    have hone := (ih (opened w) (hn ▸ opened_openPair hopen hw) w rfl).1
    rcases List.exists_mem_of_ne_nil _ (List.length_pos_iff.mp hone) with ⟨v, hv⟩
    have hmem : v ∈ words.flatMap expandBraces := List.mem_flatMap.mpr ⟨w, hw, hv⟩
    have hpos := List.length_pos_iff.mpr (List.ne_nil_of_mem hmem)
    exact Nat.le_min.mpr ⟨Nat.succ_le_succ (Nat.zero_le _), hpos⟩

/-! ## 4. Items -/

theorem natCast_of_bind {value : Option Nat} {m : Int}
    (h : (value.bind fun n => some (n : Int)) = some m) : 0 ≤ m := by
  rcases Option.bind_eq_some_iff.mp h with ⟨n, -, hn⟩
  cases hn
  exact Int.natCast_nonneg n

theorem parseI64_bounds {text : List Char} {n : Int} (h : parseI64 text = some n) :
    -2 ^ 63 ≤ n ∧ n < 2 ^ 63 := by
  unfold parseI64 parseSigned at h
  split at h
  · rcases Option.filter_eq_some_iff.mp h with ⟨hvalue, hle⟩
    rcases Option.map_eq_some_iff.mp hvalue with ⟨m, hm, rfl⟩
    have hpos := natCast_of_bind hm
    have hle : -2 ^ 63 ≤ -m := by simpa using hle
    exact ⟨hle, by omega⟩
  · rcases Option.filter_eq_some_iff.mp h with ⟨hvalue, hlt⟩
    rcases Option.map_eq_some_iff.mp hvalue with ⟨m, hm, rfl⟩
    have hpos := natCast_of_bind hm
    have hlt : m < 2 ^ 63 := by simpa using hlt
    exact ⟨by omega, hlt⟩
  · rcases Option.filter_eq_some_iff.mp h with ⟨hvalue, hlt⟩
    rcases Option.map_eq_some_iff.mp hvalue with ⟨m, hm, rfl⟩
    have hpos := natCast_of_bind hm
    have hlt : m < 2 ^ 63 := by simpa using hlt
    exact ⟨by omega, hlt⟩

/-- How far `stop` is in the direction of the step. -/
def reach (stop step cur : Int) : Int := if 0 < step then stop - cur else cur - stop

theorem reach_step (stop step cur : Int) :
    reach stop step (cur + step) = reach stop step cur - step.natAbs := by
  unfold reach
  split <;> omega

/-- `generate_range`: the numbers as far as `stop`, or as many as may follow. -/
theorem generateRange_eq {stop step : Int} (hstep : step ≠ 0) (hlow : -2 ^ 63 ≤ stop)
    (hhigh : stop < 2 ^ 63) (width : Nat) (pad : Bool) (n : Nat) (cur : Int)
    (hcur : -2 ^ 63 ≤ cur ∧ cur < 2 ^ 63) : generateRange stop step width pad n cur =
      ((List.range (reach stop step cur / step.natAbs + 1).toNat).map fun i : Nat =>
        rangeItem (cur + step * i) width pad).take n := by
  have hpos : (0 : Int) < step.natAbs := by omega
  induction n generalizing cur with
  | zero => simp [generateRange]
  | succ n ih =>
    have hin : (if 0 < step then cur ≤ stop else stop ≤ cur) ↔ 0 ≤ reach stop step cur := by
      unfold reach
      split <;> omega
    have hnext : reach stop step (cur + step) / step.natAbs =
        reach stop step cur / step.natAbs - 1 := by
      rw [reach_step]
      have h := Int.add_mul_ediv_right (reach stop step cur) (-1) (Int.ne_of_gt hpos)
      rw [← Int.sub_eq_add_neg] at h
      rw [← h]
      congr 1
      omega
    rw [generateRange]
    by_cases hgoes : 0 ≤ reach stop step cur
    · rw [if_pos (hin.mpr hgoes)]
      have hquot := Int.ediv_nonneg hgoes (Int.le_of_lt hpos)
      have hcount : (reach stop step cur / step.natAbs + 1).toNat =
          (reach stop step (cur + step) / step.natAbs + 1).toNat + 1 := by
        rw [hnext]
        omega
      rw [hcount, List.range_succ_eq_map, List.map_cons, List.take_succ_cons, List.map_map]
      have hshift : ((fun i : Nat => rangeItem (cur + step * i) width pad) ∘ Nat.succ) =
          fun i : Nat => rangeItem (cur + step + step * i) width pad := by
        funext i
        simp only [Function.comp_apply]
        congr 1
        push_cast
        rw [Int.mul_add, Int.mul_one]
        omega
      rw [hshift]
      congr 1
      · simp
      · split
        · next hfits => exact ih (cur + step) hfits
        · next hover =>
          -- the sum is beyond every `stop`
          have hbeyond : reach stop step (cur + step) < 0 := by
            unfold reach
            split <;> omega
          have hneg := Int.ediv_neg_of_neg_of_pos hbeyond hpos
          have hzero : (reach stop step (cur + step) / step.natAbs + 1).toNat = 0 := by omega
          rw [hzero, List.range_zero, List.map_nil, List.take_nil]
    · rw [if_neg (fun h => hgoes (hin.mp h))]
      have hneg := Int.ediv_neg_of_neg_of_pos (Int.not_le.mp hgoes) hpos
      have hzero : (reach stop step cur / step.natAbs + 1).toNat = 0 := by omega
      rw [hzero, List.range_zero, List.map_nil, List.take_nil]

theorem parseBraceRange_parts (h : parseBraceRange cs = some r) :
    ∃ first rest second third, splitDots cs = some (first, rest) ∧
      (splitDots rest = none ∧ second = rest ∧ third = none ∨
        ∃ t, splitDots rest = some (second, t) ∧ third = some t) ∧
      parseI64 first = some r.start ∧ parseI64 second = some r.stop ∧
      parseBraceStep third r.start r.stop = some r.step := by
  unfold parseBraceRange at h
  simp only [bind, Option.bind_eq_some_iff] at h
  rcases h with ⟨⟨first, rest⟩, hdots, start, hstart, stop, hstop, step, hstep, hr⟩
  cases hr
  cases hrest : splitDots rest with
  | none =>
    rw [hrest] at hstop hstep
    exact ⟨first, rest, rest, none, hdots, .inl ⟨hrest, rfl, rfl⟩, hstart, hstop, hstep⟩
  | some e =>
    rcases e with ⟨second, t⟩
    rw [hrest] at hstop hstep
    exact ⟨first, rest, second, some t, hdots, .inr ⟨t, hrest, rfl⟩, hstart, hstop, hstep⟩

theorem splitDots_eq {cs u v : List Char} (h : splitDots cs = some (u, v)) :
    cs = u ++ '.' :: '.' :: v := by
  induction cs using splitDots.induct generalizing u with
  | case1 => cases h
  | case2 r =>
    rw [splitDots, Option.some.injEq, Prod.mk.injEq] at h
    rw [← h.1, h.2, List.nil_append]
  | case3 c cs hdots ih =>
    rw [splitDots] at h
    · rcases Option.map_eq_some_iff.mp h with ⟨⟨u', v'⟩, hrest, heq⟩
      obtain ⟨rfl, rfl⟩ := Prod.mk.inj heq
      rw [ih hrest, List.cons_append]
    · exact hdots

/-- A range is written without commas. -/
theorem comma_not_mem_range (h : parseBraceRange cs = some r) :
    ',' ∉ cs := by
  have hnumber : ∀ {t : List Char} {n : Int}, parseI64 t = some n → ',' ∉ t := by
    intro t n hn
    rcases chars_of_parseI64 hn with ⟨c, cs, rfl, hc, hcs⟩
    rw [List.mem_cons, not_or]
    refine ⟨?_, fun hmem => absurd (hcs ',' hmem) (by decide)⟩
    rintro rfl
    revert hc
    decide
  rcases parseBraceRange_parts h with ⟨first, rest, second, third, hdots, hthird, hstart, hstop, hstep⟩
  have hrest : ',' ∉ rest := by
    rcases hthird with ⟨-, rfl, -⟩ | ⟨t, ht, rfl⟩
    · exact hnumber hstop
    · have htnum : ',' ∉ t := by
        rcases Option.filter_eq_some_iff.mp hstep with ⟨ht, -⟩
        exact hnumber ht
      rw [splitDots_eq ht]
      simp [hnumber hstop, htnum]
  rw [splitDots_eq hdots]
  simp [hnumber hstart, hrest]

theorem parseBraceRange_bounds (h : parseBraceRange cs = some r) :
    r.step ≠ 0 ∧ (-2 ^ 63 ≤ r.stop ∧ r.stop < 2 ^ 63) ∧ -2 ^ 63 ≤ r.start ∧ r.start < 2 ^ 63 := by
  rcases parseBraceRange_parts h with ⟨first, rest, second, third, -, -, hstart, hstop, hstep⟩
  refine ⟨?_, parseI64_bounds hstop, parseI64_bounds hstart⟩
  cases third with
  | none =>
    rw [parseBraceStep] at hstep
    split at hstep
    · rw [← Option.some.inj hstep]
      decide
    · rw [← Option.some.inj hstep]
      decide
  | some t =>
    rcases Option.filter_eq_some_iff.mp hstep with ⟨-, hne⟩
    simpa using hne

theorem reach_start (hstep : r.step ≠ 0) (h : ¬ r.Away) :
    reach r.stop r.step r.start = (r.stop - r.start).natAbs := by
  unfold BraceRange.Away at h
  unfold reach
  split <;> omega

/-- The numbers the source counts through, where the step points towards the end. -/
theorem rangeItems_eq (h : parseBraceRange cs = some r)
    (haway : ¬ r.Away) : rangeItems r = r.texts.take maxBraceItems := by
  rcases parseBraceRange_bounds h with ⟨hstep, hstop, hstart⟩
  rw [rangeItems, generateRange_eq hstep hstop.1 hstop.2 _ _ _ _ hstart, reach_start hstep haway]
  have hsteps : ((r.stop - r.start).natAbs : Int) / r.step.natAbs = r.steps :=
    (Int.natCast_ediv _ _).symm
  have hcount : (((r.stop - r.start).natAbs : Int) / r.step.natAbs + 1).toNat = r.steps + 1 := by
    rw [hsteps]
    omega
  rw [hcount, BraceRange.texts, BraceRange.numbers, List.map_map]
  congr 1
  apply List.map_congr_left
  intro i hi
  rw [Function.comp_apply]
  congr 2
  by_cases heq : r.start = r.stop
  · -- one number only
    have hsteps : r.steps = 0 := by
      rw [BraceRange.steps, heq, Int.sub_self]
      exact Nat.zero_div _
    have hzero : i = 0 := by
      rw [hsteps, List.mem_range] at hi
      omega
    rw [hzero]
    simp
  · have htowards : (if r.start ≤ r.stop then 1 else -1) * (r.step.natAbs : Int) = r.step := by
      unfold BraceRange.Away at haway
      split <;> omega
    rw [htowards]

theorem rangeItems_away (h : r.Away) : rangeItems r = [] := by
  have hstop : ¬ (if 0 < r.step then r.start ≤ r.stop else r.stop ≤ r.start) := by
    unfold BraceRange.Away at h
    split <;> omega
  rw [rangeItems, maxBraceItems, generateRange, if_neg hstop]

theorem splitBraceItems_eq (d : Nat) (cs : List Char) :
    splitBraceItems d cs = (pieces braces d (active cs)).map chars := by
  have hhead : ∀ (c : Char) (ps : List (List Tok)),
      consHead c (ps.map chars) = (prependFirst [(c, true)] ps).map chars := by
    intro c ps
    cases ps <;> rfl
  induction cs generalizing d with
  | nil => rfl
  | cons c cs ih =>
    have hactive : active (c :: cs) = (c, true) :: active cs := rfl
    rw [hactive, splitBraceItems, pieces]
    have hsep : ((c, true) = braces.sep ∧ d = 0) = (c = ',' ∧ d = 0) := by simp [braces]
    have hleft : ((c, true) = braces.left) = (c = '{') := by simp [braces]
    have hright : ((c, true) = braces.right) = (c = '}') := by simp [braces]
    simp only [hsep, hleft, hright]
    split
    · rw [ih]
      rfl
    · split
      · rw [ih, hhead]
      · split
        · rw [ih, hhead]
        · rw [ih, hhead]

/-! ## 5. Words whose groups are met in turn -/

/-- The commas outside the inner pairs are the same whether or not backslashes are heeded. -/
def ReadsAlike (inner : List Tok) : Prop :=
  (pieces braces 0 (active (chars inner))).map chars = (pieces braces 0 inner).map chars

/-- A range whose step has the sign of the other direction. -/
def PointsAway (inner : List Tok) : Prop := ∃ r, parseBraceRange (chars inner) = some r ∧ r.Away

/-- The first pair of the word is a group, and so is the first pair of each word in which one
    of its items stands for it, until no group is left. -/
inductive InTurn : List Tok → Prop
  | done {ts : List Tok} : ¬ HasGroup ts →
      (∀ before inner behind, braces.left ∉ before → Balanced braces inner →
        ts = before ++ braces.left :: (inner ++ braces.right :: behind) → ReadsAlike inner) →
      InTurn ts
  | next {before inner behind : List Tok} {items : List (List Tok)} : braces.left ∉ before →
      Balanced braces inner → groupItems inner = some items → ReadsAlike inner →
      ¬ PointsAway inner → (∀ item ∈ items, InTurn (before ++ (item ++ behind))) →
      InTurn (before ++ braces.left :: (inner ++ braces.right :: behind))

/-- Every pair of the word reads the same with its backslashes and without. -/
def AllAlike (ts : List Tok) : Prop := ∀ inner, PairIn braces ts inner → ReadsAlike inner

/-- A word opens no brace, or it never closes the first one, or it has a first pair. -/
theorem first_pair (ts : List Tok) : braces.left ∉ ts ∨
    (∃ before rest, braces.left ∉ before ∧ closeOf braces 0 rest = none ∧
      ts = before ++ braces.left :: rest) ∨
    ∃ before inner behind, braces.left ∉ before ∧ Balanced braces inner ∧
      ts = before ++ braces.left :: (inner ++ braces.right :: behind) := by
  by_cases hmem : braces.left ∈ ts
  · right
    rcases List.eq_append_cons_of_mem hmem with ⟨before, rest, rfl, hbefore⟩
    cases hclose : closeOf braces 0 rest with
    | none => exact .inl ⟨before, rest, hbefore, hclose, rfl⟩
    | some e =>
      rcases e with ⟨inner, behind⟩
      rw [closeOf_split hclose]
      exact .inr ⟨before, inner, behind, hbefore, balanced_of_closeOf hclose, rfl⟩
  · exact .inl hmem

/-- **The items the source finds** in a pair that reads alike: those of the group, as far as
    they are kept, and none where there is no group or the step points away. -/
theorem braceItems_alike (h : ReadsAlike inner) :
    (braceItems (chars inner) = none ∧ (groupItems inner = none ∨ PointsAway inner)) ∨
      ∃ items, groupItems inner = some items ∧ ¬ PointsAway inner ∧
        (braceItems (chars inner) = some (items.map chars) ∨ maxBraceItems < items.length) := by
  cases hrange : parseBraceRange (chars inner) with
  | none =>
    have haway : ¬ PointsAway inner := by
      rintro ⟨r, hr, -⟩
      rw [hrange] at hr
      cases hr
    have htry : tryBraceRange (chars inner) = none := by rw [tryBraceRange_eq, hrange]; rfl
    have hlen : (splitBraceItems 0 (chars inner)).length = (pieces braces 0 inner).length := by
      rw [splitBraceItems_eq, h, List.length_map]
    rw [braceItems_of_none htry, hlen, splitBraceItems_eq, h]
    by_cases hmany : 1 < (pieces braces 0 inner).length
    · refine .inr ⟨pieces braces 0 inner, ?_, haway, .inl (if_pos hmany)⟩
      simp [groupItems, hrange, hmany]
    · refine .inl ⟨if_neg hmany, .inl ?_⟩
      simp [groupItems, hrange, hmany]
  | some r =>
    by_cases haway : r.Away
    · have htry : tryBraceRange (chars inner) = none := by
        rw [tryBraceRange_eq, hrange, Option.bind_some, rangeItems_away haway]
        rfl
      have hone : splitBraceItems 0 (chars inner) = [chars inner] := by
        rw [splitBraceItems_eq,
          pieces_of_not_mem (B := braces) (not_mem_active (comma_not_mem_range hrange))]
        simp
      rw [braceItems_of_none htry, hone]
      exact .inl ⟨rfl, .inr ⟨r, hrange, haway⟩⟩
    · have hitems : groupItems inner = some (r.texts.map active) := by simp [groupItems, hrange]
      have hpoints : ¬ PointsAway inner := by
        rintro ⟨r', hr', haway'⟩
        rw [hrange, Option.some.injEq] at hr'
        exact haway (hr' ▸ haway')
      refine .inr ⟨_, hitems, hpoints, ?_⟩
      by_cases hmany : maxBraceItems < (r.texts.map active).length
      · exact .inr hmany
      · left
        have hall : rangeItems r = r.texts := by
          rw [rangeItems_eq hrange haway]
          exact List.take_of_length_le (by simpa using hmany)
        rw [braceItems_of_range hrange (hall ▸ texts_ne_nil r), hall, List.map_map]
        simp [Function.comp_def]

/-- The words that the first pair opens to, each the text of a word again. -/
theorem expandBraces_next (hbefore : braces.left ∉ before) (hinner : Balanced braces inner)
    (hword : Runs false (before ++ braces.left :: (inner ++ braces.right :: behind)) esc)
    (hitems : braceItems (chars inner) = some (items.map chars)) :
    expandBraces (chars (before ++ braces.left :: (inner ++ braces.right :: behind))) =
      (items.flatMap fun item => expandBraces (chars (before ++ (item ++ behind)))).take
        maxBraceItems := by
  have hopen := openPair_pair hbefore hinner hword
  rw [hitems, Option.map_some] at hopen
  rw [expandBraces_of_some hopen]
  simp [List.flatMap_map]

theorem expandBraces_stays (hbefore : braces.left ∉ before) (hinner : Balanced braces inner)
    (hword : Runs false (before ++ braces.left :: (inner ++ braces.right :: behind)) esc)
    (hitems : braceItems (chars inner) = none) :
    expandBraces (chars (before ++ braces.left :: (inner ++ braces.right :: behind))) =
      [chars (before ++ braces.left :: (inner ++ braces.right :: behind))] := by
  apply expandBraces_of_none
  rw [openPair_pair hbefore hinner hword, hitems, Option.map_none]

theorem length_le_flatMap {α β : Type} {f : α → List β} {as : List α} {a : α} (h : a ∈ as) :
    (f a).length ≤ (as.flatMap f).length :=
  List.Sublist.length_le (List.sublist_flatten_of_mem (List.mem_map_of_mem h))

theorem items_le_flatMap {α β : Type} {f : α → List β} {as : List α} (h : ∀ a ∈ as, f a ≠ []) :
    as.length ≤ (as.flatMap f).length := by
  induction as with
  | nil => exact Nat.zero_le _
  | cons a as ih =>
    have ha := List.length_pos_iff.mpr (h a List.mem_cons_self)
    have has := ih fun b hb => h b (List.mem_cons_of_mem a hb)
    rw [List.flatMap_cons, List.length_append, List.length_cons]
    omega

/-- **A word whose groups are met in turn is expanded to what they stand for.** -/
theorem expandBraces_of_inTurn (h : InTurn ts) (hword : Runs false ts esc)
    (hsmall : (expand ts).length ≤ maxBraceItems) : expandBraces (chars ts) = expand ts := by
  induction h generalizing esc with
  | @done ts hgroup halike =>
    rw [expand_of_not_hasGroup hgroup]
    rcases first_pair ts with hnone | ⟨before, rest, hbefore, hclose, rfl⟩ |
      ⟨before, inner, behind, hbefore, hinner, rfl⟩
    · exact expandBraces_of_none (openPair_of_not_mem hnone hword)
    · exact expandBraces_of_none (openPair_of_unclosed hbefore hclose hword)
    · have hpair : PairIn braces (before ++ braces.left :: (inner ++ braces.right :: behind)) inner :=
        (PairIn.here (closeOf_balanced hinner behind)).prepend before
      rcases braceItems_alike (halike before inner behind hbefore hinner rfl) with
        ⟨hitems, -⟩ | ⟨items, hitems, -⟩
      · exact expandBraces_stays hbefore hinner hword hitems
      · exact absurd ⟨inner, hpair, by rw [hitems]; rfl⟩ hgroup
  | @next before inner behind items hbefore hinner hitems halike haway _ ih =>
    have hexpand := expand_first hbefore (closeOf_balanced hinner behind) hitems
    rw [hexpand] at hsmall ⊢
    have hcount := Nat.le_trans (items_le_flatMap fun item _ => expand_ne_nil _) hsmall
    have hcode : braceItems (chars inner) = some (items.map chars) := by
      rcases braceItems_alike halike with ⟨-, hnone | hpoints⟩ | ⟨items', hitems', -, hcode⟩
      · rw [hitems] at hnone
        cases hnone
      · exact absurd hpoints haway
      · rw [hitems, Option.some.injEq] at hitems'
        subst hitems'
        exact hcode.resolve_right (Nat.not_lt.mpr hcount)
    have hall : ∀ item ∈ items, expandBraces (chars (before ++ (item ++ behind))) =
        expand (before ++ (item ++ behind)) := by
      intro item hitem
      exact ih item hitem (runs_replace hword hitems hitem)
        (Nat.le_trans (length_le_flatMap (f := fun i => expand (before ++ (i ++ behind))) hitem)
          hsmall)
    rw [expandBraces_next hbefore hinner hword hcode, List.flatMap_def, List.map_congr_left hall,
      ← List.flatMap_def, List.take_of_length_le hsmall]

/-! ## 6. The other direction -/

/-- The pairs of the words a group opens to are pairs of the word. -/
theorem allAlike_replace (h : AllAlike (before ++ braces.left :: (inner ++ braces.right :: behind)))
    (hbefore : braces.left ∉ before) (hinner : Balanced braces inner)
    (hitems : groupItems inner = some items) (hitem : item ∈ items) :
    AllAlike (before ++ (item ++ behind)) := by
  intro pair hpair
  refine h pair ?_
  rw [pairIn_append_of_not_mem hbefore, pairIn_group hinner]
  rw [pairIn_append_of_not_mem hbefore,
    pairIn_append (balanced_of_mem_groupItems hinner hitems hitem)] at hpair
  rcases hpair with hpair | hpair
  · rcases mem_groupItems hitems hitem with ⟨r, text, htext, rfl⟩ | hpiece
    · -- a number has no pairs
      have hnot : braces.left ∉ active text :=
        not_mem_active (not_mem_texts htext (by decide) (by decide))
      have hnil : PairIn braces [] _ :=
        (pairIn_append_of_not_mem hnot).mp (by simpa using hpair)
      exact absurd hnil not_pairIn_nil
    · exact .inr (.inl (hpair.of_infix (infix_of_mem_pieces hpiece)))
  · exact .inr (.inr hpair)

theorem AllAlike.first (h : AllAlike (before ++ braces.left :: (inner ++ braces.right :: behind)))
    (hinner : Balanced braces inner) : ReadsAlike inner :=
  h inner ((PairIn.here (closeOf_balanced hinner behind)).prepend before)

theorem opened_replace (hitems : groupItems inner = some items) (hitem : item ∈ items)
    (before behind : List Tok) : opened (chars (before ++ (item ++ behind))) <
      opened (chars (before ++ braces.left :: (inner ++ braces.right :: behind))) := by
  have hle := opened_item hitems hitem
  rw [chars_append, opened_append, chars_append, opened_append, chars_append, opened_append,
    opened_pair]
  omega

theorem flatMap_length_le {α β γ : Type} {f : α → List β} {g : α → List γ} {as : List α}
    (h : ∀ a ∈ as, (f a).length ≤ (g a).length) :
    (as.flatMap f).length ≤ (as.flatMap g).length := by
  induction as with
  | nil => exact Nat.le_refl 0
  | cons a as ih =>
    have ha := h a List.mem_cons_self
    have has := ih fun b hb => h b (List.mem_cons_of_mem a hb)
    rw [List.flatMap_cons, List.flatMap_cons, List.length_append, List.length_append]
    omega

/-- Two rows of lists, none of the first longer than its partner, that are equal put
    together. -/
theorem eq_of_flatMap_eq {α β : Type} {f g : α → List β} {as : List α}
    (h : as.flatMap f = as.flatMap g) (hle : ∀ a ∈ as, (f a).length ≤ (g a).length) :
    ∀ a ∈ as, f a = g a := by
  induction as with
  | nil => simp
  | cons a as ih =>
    have hle' : ∀ b ∈ as, (f b).length ≤ (g b).length :=
      fun b hb => hle b (List.mem_cons_of_mem a hb)
    have ha := hle a List.mem_cons_self
    have hrest := flatMap_length_le hle'
    have hlen := congrArg List.length h
    rw [List.flatMap_cons, List.flatMap_cons] at h hlen
    rw [List.length_append, List.length_append] at hlen
    rcases List.append_inj h (by omega) with ⟨hfirst, hlater⟩
    intro b hb
    rcases List.mem_cons.mp hb with rfl | hb
    · exact hfirst
    · exact ih hlater hle' b hb

/-- The source never gives more words than there are. -/
theorem expandBraces_length_le (halike : AllAlike ts) (hword : Runs false ts esc) :
    (expandBraces (chars ts)).length ≤ (expand ts).length := by
  induction hn : opened (chars ts) using Nat.strong_induction_on generalizing ts esc with
  | _ n ih =>
  have hone : ∀ {us : List Tok}, [chars us].length ≤ (expand us).length :=
    fun {us} => List.length_pos_iff.mpr (expand_ne_nil us)
  rcases first_pair ts with hnone | ⟨before, rest, hbefore, hclose, rfl⟩ |
    ⟨before, inner, behind, hbefore, hinner, rfl⟩
  · rw [expandBraces_of_none (openPair_of_not_mem hnone hword)]
    exact hone
  · rw [expandBraces_of_none (openPair_of_unclosed hbefore hclose hword)]
    exact hone
  · rcases braceItems_alike (halike.first hinner) with ⟨hitems, -⟩ |
      ⟨items, hitems, -, hcode | hmany⟩
    · rw [expandBraces_stays hbefore hinner hword hitems]
      exact hone
    · rw [expandBraces_next hbefore hinner hword hcode,
        expand_first hbefore (closeOf_balanced hinner behind) hitems]
      refine Nat.le_trans (List.length_take_le' _ _) (flatMap_length_le ?_)
      intro item hitem
      exact ih _ (hn ▸ opened_replace hitems hitem before behind)
        (allAlike_replace halike hbefore hinner hitems hitem) (runs_replace hword hitems hitem) rfl
    · have hbound := (expandBraces_bounds
        (chars (before ++ braces.left :: (inner ++ braces.right :: behind)))).2
      rw [expand_first hbefore (closeOf_balanced hinner behind) hitems]
      have hcount : items.length ≤
          (items.flatMap fun item => expand (before ++ (item ++ behind))).length :=
        items_le_flatMap fun item _ => expand_ne_nil _
      omega

/-- Where the pairs of a word read alike, only a word whose groups are met in turn is expanded
    to what they stand for. -/
theorem inTurn_of_expandBraces (halike : AllAlike ts) (hword : Runs false ts esc)
    (hsmall : (expand ts).length ≤ maxBraceItems) (h : expandBraces (chars ts) = expand ts) :
    InTurn ts := by
  induction hn : opened (chars ts) using Nat.strong_induction_on generalizing ts esc with
  | _ n ih =>
  have hdone : ∀ {us : List Tok}, expandBraces (chars us) = [chars us] →
      expandBraces (chars us) = expand us → ¬ HasGroup us := by
    intro us hself heq hgroup
    exact expand_ne_self hgroup (heq.symm.trans hself)
  rcases first_pair ts with hnone | ⟨before, rest, hbefore, hclose, rfl⟩ |
    ⟨before, inner, behind, hbefore, hinner, rfl⟩
  · refine .done (hdone (expandBraces_of_none (openPair_of_not_mem hnone hword)) h) ?_
    rintro before inner behind - - rfl
    exact absurd (List.mem_append_right before List.mem_cons_self) hnone
  · refine .done (hdone (expandBraces_of_none (openPair_of_unclosed hbefore hclose hword)) h) ?_
    intro before' inner behind _ hinner heq
    exact (heq ▸ halike).first hinner
  · rcases braceItems_alike (halike.first hinner) with ⟨hitems, -⟩ |
      ⟨items, hitems, haway, hcode⟩
    · refine .done (hdone (expandBraces_stays hbefore hinner hword hitems) h) ?_
      intro before' inner' behind' _ hinner' heq
      exact (heq ▸ halike).first hinner'
    · have hexpand := expand_first hbefore (closeOf_balanced hinner behind) hitems
      rw [hexpand] at hsmall h
      have hcount := Nat.le_trans (items_le_flatMap fun item _ => expand_ne_nil _) hsmall
      rw [expandBraces_next hbefore hinner hword (hcode.resolve_right (Nat.not_lt.mpr hcount))] at h
      have hle : ∀ item ∈ items, (expandBraces (chars (before ++ (item ++ behind)))).length ≤
          (expand (before ++ (item ++ behind))).length := by
        intro item hitem
        exact expandBraces_length_le (allAlike_replace halike hbefore hinner hitems hitem)
          (runs_replace hword hitems hitem)
      rw [List.take_of_length_le (Nat.le_trans (flatMap_length_le hle) hsmall)] at h
      refine .next hbefore hinner hitems (halike.first hinner) haway ?_
      intro item hitem
      exact ih _ (hn ▸ opened_replace hitems hitem before behind)
        (allAlike_replace halike hbefore hinner hitems hitem) (runs_replace hword hitems hitem)
        (Nat.le_trans (length_le_flatMap (f := fun i => expand (before ++ (i ++ behind))) hitem)
          hsmall) (eq_of_flatMap_eq h hle item hitem) rfl

/-! ## 7. The words of an expansion -/

/-- What is asked of the expansion of a word. -/
structure ExpandsAll (word : List Char) : Prop where
  terminates : ∀ n, word.count '{' < n → expandBracesFrom n word = expandBraces word
  nonempty : 1 ≤ (expandBraces word).length
  bounded : (expandBraces word).length ≤ maxBraceItems
  groups : (expansion word).length ≤ maxBraceItems → expandBraces word = expansion word

theorem expandsAll_iff (word : List Char) : ExpandsAll word ↔
    ((expansion word).length ≤ maxBraceItems → expandBraces word = expansion word) := by
  constructor
  · intro h
    exact h.groups
  · intro h
    exact ⟨fun n hn => expandBracesFrom_eq hn (Nat.lt_succ_self _), (expandBraces_bounds word).1,
      (expandBraces_bounds word).2, h⟩

/-- **A word is expanded to the product of its groups when they are met in turn, and, where
    its pairs read the same with their backslashes and without, only then.** -/
theorem expands_groups_iff (word : List Char) :
    (((expansion word).length ≤ maxBraceItems → InTurn (marks false word)) → ExpandsAll word) ∧
      (AllAlike (marks false word) → ExpandsAll word →
        (expansion word).length ≤ maxBraceItems → InTurn (marks false word)) := by
  rcases runs_marks false word with ⟨esc, hword⟩
  constructor
  · intro h
    rw [expandsAll_iff]
    intro hsmall
    have heq := expandBraces_of_inTurn (h hsmall) hword hsmall
    rwa [chars_marks] at heq
  · intro halike h hsmall
    have heq := h.groups hsmall
    exact inTurn_of_expandBraces halike hword hsmall (by rwa [chars_marks])

/-- The pair in front gives no items, so the list behind it is not reached. -/
theorem pair_in_front_hides_list : ¬ ∀ word, ExpandsAll word := by
  intro h
  have hgroups := (h "\x7bx\x7d\x7ba,b\x7d".toList).groups
  revert hgroups
  decide +kernel

end Wasmsh.BraceGroups

import Wasmsh.WordParser

/-!
# What the word parser logs

Facts about `Wasmsh.WordParser` that its users need: every step moves forward, the
marks depend on the text alone (not on the pending literal, nor on the bound of the
loops), and every mark lies after the cursor it was read from.
-/

namespace Wasmsh.WordParser

open Scanning DyckStep

variable {c : Text}

/-! ## 1. Every step moves forward -/

theorem parseSingleQuoted_reaches (c : Text) : c.Reaches (parseSingleQuoted c).next := by
  unfold parseSingleQuoted
  simp only
  split
  · exact .atEnd c
  · rename_i h
    refine .skip ?_
    have := congrArg List.length h
    simp only [List.length_drop, List.length_cons] at this
    omega

theorem backtickLoop_reaches (inner : List Char) (pos : Nat) (r : List Char) :
    Cursor.Reaches ⟨pos, r⟩ (backtickLoop inner pos r).next := by
  fun_induction backtickLoop inner pos r with
  | case1 => exact .refl _
  | case2 => exact (Cursor.Passes.skip_one (by simp)).1
  | case3 _ _ _ ih | case4 _ _ _ ih | case5 _ _ _ ih =>
    exact (Cursor.Reaches.skip (n := 2) (by simp)).trans ih
  | case6 _ _ _ _ _ _ _ _ ih => exact (Cursor.Reaches.skip (n := 1) (by simp)).trans ih

theorem parseBacktick_reaches (c : Text) : c.Reaches (parseBacktick c).next :=
  backtickLoop_reaches [] c.pos c.rest

theorem skipDoubleQuotedLoop_reaches (pos : Nat) (r : List Char) :
    Cursor.Reaches ⟨pos, r⟩ (skipDoubleQuotedLoop pos r) := by
  fun_induction skipDoubleQuotedLoop pos r with
  | case1 => exact .refl _
  | case2 => exact (Cursor.Passes.skip_one (by simp)).1
  | case3 _ _ _ ih => exact (Cursor.Reaches.skip (n := 2) (by simp)).trans ih
  | case4 _ _ _ _ _ ih => exact (Cursor.Reaches.skip (n := 1) (by simp)).trans ih

theorem skipSingleQuoted_passes (h : c.rest ≠ []) : c.Passes (skipSingleQuoted c) :=
  (Cursor.Passes.skip_one h).trans_reaches (parseSingleQuoted_reaches _)

theorem skipDoubleQuoted_passes (h : c.rest ≠ []) : c.Passes (skipDoubleQuoted c) :=
  (Cursor.Passes.skip_one h).trans_reaches (skipDoubleQuotedLoop_reaches _ _)

theorem arithLexeme_consumes : arithLexeme.Consumes := by
  intro c hc
  unfold arithLexeme
  split
  · rename_i h
    exact .skip (by decide) (by simp [h])
  · rename_i h
    exact .skip (by decide) (by simp [h])
  · exact .skip_one hc

theorem cmdSubstLexeme_consumes : cmdSubstLexeme.Consumes := by
  intro c hc
  unfold cmdSubstLexeme
  split
  · exact .skip_one hc
  · exact .skip_one hc
  · exact skipSingleQuoted_passes hc
  · exact skipDoubleQuoted_passes hc
  · exact .skip_one hc

theorem braceLexeme_consumes : braceLexeme.Consumes := by
  intro c hc
  unfold braceLexeme
  split
  · exact .skip_one hc
  · exact .skip_one hc
  · rename_i b r h
    exact .of_append (u := ['\\', b]) (by simp [h]) (by simp) (by simp)
  · exact .skip_one hc

theorem parseBody_reaches {lexeme : Lexeme Char} (hlex : lexeme.Consumes) (c : Text) :
    c.Reaches (parseBody lexeme c).next := by
  unfold parseBody
  split
  · rename_i k c' h
    obtain ⟨ts, hts, -, hk, hw⟩ := (findClose_eq_some_iff hlex (Nat.le_refl _)).mp h
    have hlast := hlex k hk
    rw [hw] at hlast
    exact (hts.reaches hlex).trans hlast.1
  · exact .atEnd c

theorem parseHexDigits_reaches (n val : Nat) (c : Text) :
    c.Reaches (parseHexDigits n val c).2 := by
  induction n generalizing val c with
  | zero => exact .refl c
  | succ n ih =>
    unfold parseHexDigits
    split
    · rename_i digit h
      have hne : c.rest ≠ [] := by
        intro he
        simp [he] at h
      exact (Cursor.Passes.skip_one hne).1.trans (ih _ _)
    · exact .refl c

theorem parseOctalDigits_reaches (n val : Nat) (c : Text) :
    c.Reaches (parseOctalDigits n val c).2 := by
  induction n generalizing val c with
  | zero => exact .refl c
  | succ n ih =>
    unfold parseOctalDigits
    split
    · rename_i b r h
      split
      · exact (Cursor.Passes.skip_one (by simp [h])).1.trans (ih _ _)
      · exact .refl c
    · exact .refl c

theorem ansiCEscape_passes (hc : c.rest ≠ []) : c.Passes (ansiCEscape c).2 := by
  unfold ansiCEscape
  split
  case h_13 => exact (Cursor.Passes.skip_one hc).trans_reaches (parseHexDigits_reaches _ _ _)
  case h_14 b r h =>
    split
    · rename_i hb
      -- the first digit is there, so at least one of the three is consumed
      rw [parseOctalDigits]
      simp only [h, if_pos hb]
      exact (Cursor.Passes.skip_one hc).trans_reaches (parseOctalDigits_reaches _ _ _)
    · exact .skip_one hc
  case h_15 h => exact absurd h hc
  all_goals exact .skip_one hc

theorem ansiCEscape_reaches (c : Text) : c.Reaches (ansiCEscape c).2 := by
  by_cases hc : c.rest = []
  · obtain ⟨pos, rest⟩ := c
    subst hc
    exact .refl _
  · exact (ansiCEscape_passes hc).1

theorem ansiCLoop_reaches (n : Nat) (result : List Char) (c : Text) :
    c.Reaches (ansiCLoop result n c).next := by
  induction n generalizing result c with
  | zero => exact .refl c
  | succ n ih =>
    unfold ansiCLoop
    split
    · exact .refl c
    · rename_i h
      exact (Cursor.Passes.skip_one (by simp [h])).1
    · rename_i r h
      have hskip := (Cursor.Passes.skip_one (c := c) (by simp [h])).1
      exact hskip.trans ((ansiCEscape_reaches _).trans (ih _ _))
    · rename_i h
      exact (Cursor.Passes.skip_one (by simp [h])).1.trans (ih _ _)

theorem takeWhile_reaches (p : Char → Bool) (c : Text) :
    c.Reaches (c.skip (c.rest.takeWhile p).length) :=
  .skip (List.takeWhile_prefix p).length_le

theorem parseDollar_passes {p : Part} (h : parseDollar c = some p) :
    c.Passes p.next := by
  unfold parseDollar at h
  split at h
  · simp at h
  · rename_i r hr
    have hskip : c.Passes (c.skip 1) := .skip_one (by simp [hr])
    obtain rfl : parseDollarParen c = p := by simpa using h
    unfold parseDollarParen
    simp only
    split
    · rename_i hparen
      have hne : (c.skip 1).rest ≠ [] := by
        intro he
        rw [he] at hparen
        simp at hparen
      exact hskip.trans ((Cursor.Passes.skip_one hne).trans_reaches
        (parseBody_reaches arithLexeme_consumes _))
    · exact hskip.trans_reaches (parseBody_reaches cmdSubstLexeme_consumes _)
  · rename_i r hr
    obtain rfl : parseDollarBrace c = p := by simpa using h
    exact (Cursor.Passes.skip_one (by simp [hr])).trans_reaches
      (parseBody_reaches braceLexeme_consumes _)
  · rename_i b r _ _ hr
    split at h
    · rename_i hb
      obtain rfl : parseNamedParameter c = p := by simpa using h
      refine ⟨takeWhile_reaches _ c, ?_⟩
      have hname := isNameByte_of_isNameStart hb
      simp [parseNamedParameter, hr, hname]
    · split at h
      · obtain rfl : parseSpecialParameter c = p := by simpa using h
        exact .skip_one (by simp [hr])
      · simp at h

theorem dqBackslash_passes (lit : List Char) (hc : c.rest ≠ []) :
    c.Passes (dqBackslash lit c).2 := by
  unfold dqBackslash
  split
  · rename_i a r h
    exact .of_append (u := [a, '\n']) (by simp [h]) (by simp) (by simp)
  · rename_i a b r _ h
    split <;> exact .of_append (u := [a, b]) (by simp [h]) (by simp) (by simp)
  · exact .skip_one hc

theorem doubleQuotedLoop_reaches (n : Nat) (lit : List Char) (c : Text) :
    c.Reaches (doubleQuotedLoop n lit c).next := by
  induction n generalizing lit c with
  | zero => exact .refl c
  | succ n ih =>
    unfold doubleQuotedLoop
    split
    · exact .refl c
    · rename_i h
      exact (Cursor.Passes.skip_one (by simp [h])).1
    · rename_i h
      exact (dqBackslash_passes lit (by simp [h])).1.trans (ih _ _)
    · rename_i r h
      have hskip := (Cursor.Passes.skip_one (c := c) (by simp [h])).1
      split
      · rename_i p hp
        exact hskip.trans ((parseDollar_passes hp).1.trans (ih _ _))
      · exact hskip.trans (ih _ _)
    · rename_i h
      exact (Cursor.Passes.skip_one (by simp [h])).1.trans
        ((parseBacktick_reaches _).trans (ih _ _))
    · rename_i h
      exact (Cursor.Passes.skip_one (by simp [h])).1.trans (ih _ _)

theorem doubleQuotedStep_reaches (lit : List Char) (c : Text) :
    c.Reaches (doubleQuotedStep lit c).next := doubleQuotedLoop_reaches _ _ c

theorem parseDollarPart_passes (lit : List Char) (hc : c.rest ≠ []) :
    c.Passes (parseDollarPart lit c).next := by
  have hskip := Cursor.Passes.skip_one hc
  unfold parseDollarPart
  split
  · rename_i r h
    exact (Cursor.Passes.skip (n := 2) (by decide) (by simp [h])).trans_reaches
      (ansiCLoop_reaches _ _ _)
  · rename_i r h
    exact (Cursor.Passes.skip (n := 2) (by decide) (by simp [h])).trans_reaches
      (doubleQuotedStep_reaches _ _)
  · split
    · rename_i p hp
      exact hskip.trans (parseDollar_passes hp)
    · exact hskip

/-- **Every turn of `parse_word_parts` consumes at least one byte.** -/
theorem parseWordPart_consumes (lit : List Char) (hc : c.rest ≠ []) :
    c.Passes (parseWordPart lit c).next := by
  have hskip := Cursor.Passes.skip_one hc
  unfold parseWordPart
  split
  · exact hskip.trans_reaches (parseSingleQuoted_reaches _)
  · exact hskip.trans_reaches (doubleQuotedStep_reaches _ _)
  · unfold parseEscapedLiteral
    split
    · rename_i a r h
      exact .of_append (u := [a, '\n']) (by simp [h]) (by simp) (by simp)
    · rename_i a b r _ h
      exact .of_append (u := [a, b]) (by simp [h]) (by simp) (by simp)
    · exact hskip
  · exact parseDollarPart_passes lit hc
  · exact hskip.trans_reaches (parseBacktick_reaches _)
  · rename_i r h
    exact (Cursor.Passes.skip (n := 2) (by decide) (by simp [h])).trans_reaches
      (parseBody_reaches cmdSubstLexeme_consumes _)
  · rename_i r h
    exact (Cursor.Passes.skip (n := 2) (by decide) (by simp [h])).trans_reaches
      (parseBody_reaches cmdSubstLexeme_consumes _)
  · exact hskip
  · rename_i h
    exact absurd h hc

/-! ## 2. The marks are a function of the text -/

theorem parseWordPart_marks (lit : List Char) (c : Text) :
    (parseWordPart lit c).marks = (parseWordPart [] c).marks := by
  unfold parseWordPart parseDollarPart parseEscapedLiteral
  split <;> first | rfl | (split <;> first | rfl | (split <;> rfl))

theorem parseWordPart_next (lit : List Char) (c : Text) :
    (parseWordPart lit c).next = (parseWordPart [] c).next := by
  unfold parseWordPart parseDollarPart parseEscapedLiteral
  split <;> first | rfl | (split <;> first | rfl | (split <;> rfl))

/-- The loop's marks depend neither on the pending literal nor on the bound. -/
theorem parseWordLoop_marks (n m : Nat) (lit lit' : List Char) (c : Text)
    (hn : c.rest.length ≤ n) (hm : c.rest.length ≤ m) :
    (parseWordLoop n lit c).marks = (parseWordLoop m lit' c).marks := by
  induction n generalizing m lit lit' c with
  | zero =>
    have hnil : c.rest = [] := List.length_eq_zero_iff.mp (by omega)
    cases m <;> simp [parseWordLoop, hnil]
  | succ n ih =>
    cases hr : c.rest with
    | nil => cases m <;> simp [parseWordLoop, hr]
    | cons b r =>
      have hc : c.rest ≠ [] := by simp [hr]
      obtain ⟨m, rfl⟩ : ∃ k, m = k + 1 := ⟨m - 1, by rw [hr] at hm; simp at hm; omega⟩
      have hlt := (parseWordPart_consumes [] hc).length_lt
      simp only [parseWordLoop, hr]
      rw [parseWordPart_marks lit, parseWordPart_marks lit', parseWordPart_next lit,
        parseWordPart_next lit']
      rw [ih m _ _ _ (by omega) (by omega)]

/-- The marks of `parse_word_parts` on the text at a cursor. -/
def wordMarks (c : Text) : List Mark := (parseWordLoop c.rest.length [] c).marks

@[simp] theorem wordMarks_nil (pos : Nat) : wordMarks ⟨pos, []⟩ = [] := rfl

theorem wordMarks_eq_nil (h : c.rest = []) : wordMarks c = [] := by
  simp [wordMarks, parseWordLoop, h]

theorem wordMarks_step (hc : c.rest ≠ []) :
    wordMarks c = (parseWordPart [] c).marks ++ wordMarks (parseWordPart [] c).next := by
  have hlt := (parseWordPart_consumes [] hc).length_lt
  obtain ⟨n, hn⟩ : ∃ n, c.rest.length = n + 1 := ⟨c.rest.length - 1, by omega⟩
  cases hr : c.rest with
  | nil => exact absurd hr hc
  | cons b r =>
    unfold wordMarks
    rw [hn]
    simp only [parseWordLoop, hr]
    rw [parseWordLoop_marks n _ _ [] _ (by omega) (Nat.le_refl _)]

/-- What the loop over the inside of double quotes finds out about the regions: the
    marks in it, where it stops, and whether at a closing quote. -/
def quotedMarks (n : Nat) (lit : List Char) (c : Text) : List Mark × Text × Bool :=
  let b := doubleQuotedLoop n lit c
  (b.content.marks, b.next, b.closed)

theorem dqBackslash_next (lit lit' : List Char) (c : Text) :
    (dqBackslash lit c).2 = (dqBackslash lit' c).2 := by
  unfold dqBackslash
  split
  · rfl
  · split <;> rfl
  · rfl

theorem quotedMarks_irrel (n m : Nat) (lit lit' : List Char) (c : Text)
    (hn : c.rest.length ≤ n) (hm : c.rest.length ≤ m) :
    quotedMarks n lit c = quotedMarks m lit' c := by
  induction n generalizing m lit lit' c with
  | zero =>
    have hnil : c.rest = [] := List.length_eq_zero_iff.mp (by omega)
    cases m <;> simp [quotedMarks, doubleQuotedLoop, hnil]
  | succ n ih =>
    by_cases hc : c.rest = []
    · cases m <;> simp [quotedMarks, doubleQuotedLoop, hc]
    obtain ⟨m, rfl⟩ : ∃ k, m = k + 1 :=
      ⟨m - 1, by have := List.length_pos_of_ne_nil hc; omega⟩
    have hskip := (Cursor.Passes.skip_one hc).length_lt
    have hrec : ∀ (l l' : List Char) (c' : Text), c.Passes c' →
        quotedMarks n l c' = quotedMarks m l' c' := by
      intro l l' c' hpass
      have := hpass.length_lt
      exact ih m l l' c' (by omega) (by omega)
    simp only [quotedMarks] at hrec ⊢
    unfold doubleQuotedLoop
    split
    · rfl
    · rfl
    · have hpass := dqBackslash_passes lit hc
      have hnext := dqBackslash_next lit lit' c
      rcases hl : dqBackslash lit c with ⟨l, c'⟩
      rcases hl' : dqBackslash lit' c with ⟨l', c''⟩
      rw [hl] at hpass hnext
      rw [hl'] at hnext
      obtain rfl : c' = c'' := hnext
      exact hrec l l' c' hpass
    · split
      · rename_i p hp
        have := hrec [] [] _ ((Cursor.Passes.skip_one hc).trans (parseDollar_passes hp))
        simp_all [Body.prepend]
      · have := hrec ['$'] ['$'] _ (Cursor.Passes.skip_one hc)
        simp_all [Body.prepend]
    · have := hrec [] [] _ ((Cursor.Passes.skip_one hc).trans_reaches (parseBacktick_reaches _))
      simp_all [Body.prepend]
    · exact hrec _ _ _ (Cursor.Passes.skip_one hc)

/-- The regions inside double quotes, from the text at the cursor alone. -/
def quoted (c : Text) : List Mark × Text × Bool := quotedMarks c.rest.length [] c

theorem quoted_eq (n : Nat) (lit : List Char) (c : Text) (hn : c.rest.length ≤ n) :
    quotedMarks n lit c = quoted c := quotedMarks_irrel _ _ _ _ c hn (Nat.le_refl _)

section QuotedEquations

variable {c : Text} {r : List Char}

theorem quoted_quote (h : c.rest = '"' :: r) : quoted c = ([], c.skip 1, true) := by
  simp [quoted, quotedMarks, doubleQuotedLoop, h]

theorem quoted_backslash (h : c.rest = '\\' :: r) : quoted c = quoted (dqBackslash [] c).2 := by
  have hlt := (dqBackslash_passes [] (c := c) (by simp [h])).length_lt
  rw [h, List.length_cons] at hlt
  rw [← quoted_eq r.length (dqBackslash [] c).1 (dqBackslash [] c).2 (by omega)]
  simp [quoted, quotedMarks, doubleQuotedLoop, h]

theorem quoted_dollar_some {p : Part} (h : c.rest = '$' :: r)
    (hp : parseDollar (c.skip 1) = some p) :
    quoted c = (p.marks ++ (quoted p.next).1, (quoted p.next).2) := by
  have hlt := (parseDollar_passes hp).length_lt
  simp only [Cursor.skip_rest, h, List.drop_succ_cons, List.drop_zero] at hlt
  rw [← quoted_eq r.length [] p.next (by omega)]
  simp [quoted, quotedMarks, doubleQuotedLoop, h, hp, Body.prepend]

theorem quoted_dollar_none (h : c.rest = '$' :: r) (hp : parseDollar (c.skip 1) = none) :
    quoted c = quoted (c.skip 1) := by
  rw [← quoted_eq r.length ['$'] (c.skip 1) (by simp [h])]
  simp [quoted, quotedMarks, doubleQuotedLoop, h, hp, Body.prepend]

theorem quoted_backtick (h : c.rest = '`' :: r) :
    quoted c =
      ((parseBacktick (c.skip 1)).marks .backtick (c.skip 1) [] ++
        (quoted (parseBacktick (c.skip 1)).next).1,
       (quoted (parseBacktick (c.skip 1)).next).2) := by
  have hle := (parseBacktick_reaches (c.skip 1)).length_le
  simp only [Cursor.skip_rest, h, List.drop_succ_cons, List.drop_zero] at hle
  rw [← quoted_eq r.length [] _ hle]
  simp [quoted, quotedMarks, doubleQuotedLoop, h, Body.prepend]

theorem quoted_plain {b : Char} (h : c.rest = b :: r) (hq : b ≠ '"') (he : b ≠ '\\')
    (hd : b ≠ '$') (ht : b ≠ '`') : quoted c = quoted (c.skip 1) := by
  rw [← quoted_eq r.length ([] ++ [b]) (c.skip 1) (by simp [h])]
  simp [quoted, quotedMarks, doubleQuotedLoop, h]

end QuotedEquations

theorem quoted_nil (hc : c.rest = []) : quoted c = ([], c, false) := by
  simp [quoted, quotedMarks, doubleQuotedLoop, hc]

/-! ## 3. Marks lie ahead -/

theorem Body.marks_after {β : Type} (k : Region) {p : Nat} {inside : List Mark}
    {b : Body β} (hp : p < c.pos) (h : c.Reaches b.next) (hin : MarksAfter p inside) :
    MarksAfter p (b.marks k c inside) := by
  have := h.pos_le
  unfold Body.marks
  split
  · simp_all [Mark.offset]
    omega
  · simp_all [Mark.offset]

theorem parseDollar_marks_after {p : Part} (h : parseDollar c = some p) :
    MarksAfter c.pos p.marks := by
  unfold parseDollar at h
  split at h
  · simp at h
  · obtain rfl : parseDollarParen c = p := by simpa using h
    unfold parseDollarParen
    simp only
    split
    · exact Body.marks_after _ (by simp only [Cursor.skip_pos]; omega)
        (parseBody_reaches arithLexeme_consumes _) (by simp)
    · exact Body.marks_after _ (by simp) (parseBody_reaches cmdSubstLexeme_consumes _) (by simp)
  · obtain rfl : parseDollarBrace c = p := by simpa using h
    exact Body.marks_after _ (by simp) (parseBody_reaches braceLexeme_consumes _) (by simp)
  · split at h
    · obtain rfl : parseNamedParameter c = p := by simpa using h
      simp [parseNamedParameter]
    · split at h
      · obtain rfl : parseSpecialParameter c = p := by simpa using h
        simp [parseSpecialParameter]
      · simp at h

theorem doubleQuotedLoop_marks_after (n : Nat) (lit : List Char) (c : Text) :
    MarksAfter c.pos (doubleQuotedLoop n lit c).content.marks := by
  induction n generalizing lit c with
  | zero => simp [doubleQuotedLoop]
  | succ n ih =>
    have hrec : ∀ (l : List Char) (c' : Text), c.Reaches c' →
        MarksAfter c.pos (doubleQuotedLoop n l c').content.marks :=
      fun l c' hreach => (ih l c').mono hreach.pos_le
    unfold doubleQuotedLoop
    split
    · simp
    · simp
    · rename_i h
      exact hrec _ _ (dqBackslash_passes lit (by simp [h])).1
    · rename_i r h
      have hskip := (Cursor.Passes.skip_one (c := c) (by simp [h])).1
      split
      · rename_i p hp
        simp only [Body.prepend, marksAfter_append]
        refine ⟨(parseDollar_marks_after hp).mono (by simp), ?_⟩
        exact hrec _ _ (hskip.trans (parseDollar_passes hp).1)
      · simp only [Body.prepend, List.nil_append]
        exact hrec _ _ hskip
    · rename_i r h
      have hskip := (Cursor.Passes.skip_one (c := c) (by simp [h])).1
      simp only [Body.prepend, marksAfter_append]
      refine ⟨?_, hrec _ _ (hskip.trans (parseBacktick_reaches _))⟩
      exact Body.marks_after _ (by simp) (parseBacktick_reaches _) (by simp)
    · rename_i h
      exact hrec _ _ (Cursor.Passes.skip_one (by simp [h])).1

theorem quoted_marks_after (c : Text) : MarksAfter c.pos (quoted c).1 :=
  doubleQuotedLoop_marks_after _ _ c

end Wasmsh.WordParser

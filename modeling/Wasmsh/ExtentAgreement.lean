import Mathlib.Data.List.TakeWhile
import Wasmsh.ExtentTracking

/-!
# Do lexer and word parser agree on extents?

The comparison of `Wasmsh.ExtentTracking` carried through extended patterns, whole
words and tokens.  `nextToken_extents_iff` is the result: on every word token the two
scanners agree exactly when `tokenAgrees` holds there.  A nested parenthesis in an
arithmetic expansion is a word on which they do not
(`nestedParens_extents_differ`).
-/

namespace Wasmsh.Extents

open Scanning Wasmsh.Lex Wasmsh.WordParser

variable {c c' : Text} {b : Char} {t r : List Char} {ms : List Mark}

/-! ## 1. The word parser's log, byte by byte -/

section WordMarksEquations

variable {c : Text} {r : List Char}

theorem wordMarks_single (hc : c.rest = '\'' :: r) :
    wordMarks c = (parseSingleQuoted (c.skip 1)).marks .singleQuoted (c.skip 1) [] ++
      wordMarks (parseSingleQuoted (c.skip 1)).next := by
  rw [wordMarks_step (by simp [hc])]
  simp [parseWordPart, hc, parseSingleQuotedPart]

theorem wordMarks_backtick (hc : c.rest = '`' :: r) :
    wordMarks c = (parseBacktick (c.skip 1)).marks .backtick (c.skip 1) [] ++
      wordMarks (parseBacktick (c.skip 1)).next := by
  rw [wordMarks_step (by simp [hc])]
  simp [parseWordPart, hc, parseBacktickPart]

theorem quoted_unclosed (c : Text) (h : (quoted c).2.2 = false) : (quoted c).2.1.rest = [] := by
  have hloop : ∀ (n : Nat) (lit : List Char) (c : Text), c.rest.length ≤ n →
      (WordParser.doubleQuotedLoop n lit c).closed = false →
        (WordParser.doubleQuotedLoop n lit c).next.rest = [] := by
    intro n
    induction n with
    | zero =>
      intro lit c hn _
      exact List.length_eq_zero_iff.mp (by simpa [WordParser.doubleQuotedLoop] using hn)
    | succ n ih =>
      intro lit c hn hcl
      have hrec : ∀ (l : List Char) (m : Text), c.Passes m →
          (WordParser.doubleQuotedLoop n l m).closed = false →
            (WordParser.doubleQuotedLoop n l m).next.rest = [] := by
        intro l m hpass
        have := hpass.length_lt
        exact ih l m (by omega)
      unfold WordParser.doubleQuotedLoop at hcl ⊢
      split at hcl
      · assumption
      · simp at hcl
      · rename_i hr
        have hpass := dqBackslash_passes lit (c := c) (by simp [hr])
        rcases hdq : dqBackslash lit c with ⟨l, m⟩
        simp only [hdq] at hcl hpass ⊢
        exact hrec l m hpass hcl
      · rename_i hr
        have hskip := Cursor.Passes.skip_one (c := c) (by simp [hr])
        split at hcl
        · rename_i p hp
          exact hrec _ _ (hskip.trans (parseDollar_passes hp)) hcl
        · exact hrec _ _ hskip hcl
      · rename_i hr
        have hskip := Cursor.Passes.skip_one (c := c) (by simp [hr])
        exact hrec _ _ (hskip.trans_reaches (parseBacktick_reaches _)) hcl
      · rename_i hr
        exact hrec _ _ (.skip_one (by simp [hr])) hcl
  exact hloop _ [] c (Nat.le_refl _) h

/-- The log of a double-quoted string whose content starts at `d`, and of what follows. -/
theorem doubleQuotedStep_log (d : Text) :
    (doubleQuotedStep [] d).marks ++ wordMarks (doubleQuotedStep [] d).next =
      .opened .doubleQuoted d.pos :: quotedLog d wordMarks := by
  have hopen := quoted_unclosed d
  unfold quotedLog
  simp only [doubleQuotedStep, Body.marks, parseDoubleQuoted]
  simp only [quoted, quotedMarks] at hopen ⊢
  by_cases hcl : (WordParser.doubleQuotedLoop d.rest.length [] d).closed = true
  · simp [hcl]
  · simp only [Bool.not_eq_true] at hcl
    simp [hcl, wordMarks_eq_nil (hopen hcl)]

theorem wordMarks_double (hc : c.rest = '"' :: r) :
    wordMarks c = .opened .doubleQuoted (c.pos + 1) :: quotedLog (c.skip 1) wordMarks := by
  rw [wordMarks_step (by simp [hc])]
  simpa [parseWordPart, hc, parseDoubleQuotedPart] using doubleQuotedStep_log (c.skip 1)

theorem wordMarks_escape (hc : c.rest = '\\' :: b :: r) :
    wordMarks c = wordMarks ⟨c.pos + 2, r⟩ := by
  rw [wordMarks_step (by simp [hc])]
  by_cases hb : b = '\n'
  · subst hb
    simp [parseWordPart, hc, parseEscapedLiteral]
  · simp [parseWordPart, hc, parseEscapedLiteral]

theorem wordMarks_lone_backslash (hc : c.rest = ['\\']) : wordMarks c = wordMarks (c.skip 1) := by
  rw [wordMarks_step (by simp [hc])]
  simp [parseWordPart, hc, parseEscapedLiteral]

theorem wordMarks_ansi (hc : c.rest = '$' :: '\'' :: r) :
    wordMarks c = (parseAnsiCQuoted (c.skip 2)).marks .singleQuoted (c.skip 2) [] ++
      wordMarks (parseAnsiCQuoted (c.skip 2)).next := by
  rw [wordMarks_step (by simp [hc])]
  simp [parseWordPart, hc, parseDollarPart]

/-- `$"` and `"` start the same string. -/
theorem wordMarks_locale (hc : c.rest = '$' :: '"' :: r) :
    wordMarks c = wordMarks (c.skip 1) := by
  rw [wordMarks_double (c := c.skip 1) (by simp [hc]; rfl), skip_skip,
    wordMarks_step (by simp [hc])]
  simpa [parseWordPart, hc, parseDollarPart] using doubleQuotedStep_log (c.skip 2)

/-- A `$` before no quote is left to `parse_dollar`. -/
theorem parseDollarPart_other (hc : c.rest = '$' :: r) (h₁ : r.head? ≠ some '\'')
    (h₂ : r.head? ≠ some '"') {s : Step}
    (hs : (match parseDollar (c.skip 1) with
      | some p => ⟨[], flush [] ++ [p.part], p.marks, p.next⟩
      | none => ⟨['$'], flush [], [], c.skip 1⟩) = s) : parseWordPart [] c = s := by
  have hpart : parseWordPart [] c = parseDollarPart [] c := by simp [parseWordPart, hc]
  rw [hpart, parseDollarPart, ← hs]
  split
  · rename_i heq
    obtain ⟨-, rfl⟩ := List.cons.inj (hc.symm.trans heq)
    simp at h₁
  · rename_i heq
    obtain ⟨-, rfl⟩ := List.cons.inj (hc.symm.trans heq)
    simp at h₂
  · rfl

theorem wordMarks_dollar_some {p : Part} (hc : c.rest = '$' :: r) (h₁ : r.head? ≠ some '\'')
    (h₂ : r.head? ≠ some '"') (hp : parseDollar (c.skip 1) = some p) :
    wordMarks c = p.marks ++ wordMarks p.next := by
  rw [wordMarks_step (by simp [hc]), parseDollarPart_other hc h₁ h₂ (by rw [hp])]

theorem wordMarks_dollar_none (hc : c.rest = '$' :: r) (h₁ : r.head? ≠ some '\'')
    (h₂ : r.head? ≠ some '"') (hp : parseDollar (c.skip 1) = none) :
    wordMarks c = wordMarks (c.skip 1) := by
  rw [wordMarks_step (by simp [hc]), parseDollarPart_other hc h₁ h₂ (by rw [hp])]
  rfl

/-- A byte the word parser copies into the pending literal. -/
def isPlainByte (b : Char) : Bool := !(['\'', '"', '\\', '$', '`'].contains b)

theorem wordMarks_plain (hc : c.rest = b :: r) (hb : isPlainByte b = true)
    (hproc : b = '<' ∨ b = '>' → r.head? ≠ some '(') : wordMarks c = wordMarks (c.skip 1) := by
  have hpart : parseWordPart [] c = ⟨[b], [], [], c.skip 1⟩ := by
    simp only [isPlainByte, List.contains_cons, List.contains_nil] at hb
    unfold parseWordPart
    split <;> grind
  rw [wordMarks_step (by simp [hc]), hpart]
  rfl

theorem wordMarks_process (hc : c.rest = b :: '(' :: r) (hb : b = '<' ∨ b = '>') :
    wordMarks c = (parseBody cmdSubstLexeme (c.skip 2)).marks .process (c.skip 2) [] ++
      wordMarks (parseBody cmdSubstLexeme (c.skip 2)).next := by
  rw [wordMarks_step (by simp [hc])]
  rcases hb with rfl | rfl <;> simp [parseWordPart, hc, parseProcessSubst]

end WordMarksEquations

/-! ## 2. Extended patterns

The lexer reads `?(...)` and its like as one piece in which only parentheses and
backslashes matter.  The word parser knows no patterns and reads the same bytes as
word text. -/

theorem escapesClosed_cons (hb : b ≠ '\\') (v : List Char) :
    escapesClosed (b :: v) = escapesClosed v :=
  escapesClosed_append (u := [b]) (by simpa using Ne.symm hb) v

/-- No escape of a pattern runs over its closing parenthesis. -/
theorem consumeBody_extglob {what : String} {start n : Nat} :
    ∀ {depth : Nat} {c c' : Text}, consumeBody extglobLexeme what start n depth c = .ok c' →
      ∃ v, Closes c [')'] c' v ∧ escapesClosed v = true := by
  induction n with
  | zero =>
    intro depth c c' h
    simp [consumeBody] at h
  | succ n ih =>
    intro depth c c' h
    unfold consumeBody at h
    split at h
    · simp at h
    · rename_i b r hr
      obtain ⟨⟨s, m⟩, h₁, h⟩ := bind_eq_ok.mp h
      -- the rest of the body, behind the bytes `u` of this lexeme
      have hrec : ∀ (u : List Char) (d : Nat), c.rest = u ++ m.rest →
          m.pos = c.pos + u.length → (∀ w, escapesClosed (u ++ w) = escapesClosed w) →
          consumeBody extglobLexeme what start n d m = .ok c' →
            ∃ v, Closes c [')'] c' v ∧ escapesClosed v = true := by
        intro u d hu hp hesc hloop
        obtain ⟨v, hv, hv'⟩ := ih hloop
        refine ⟨u ++ v, ⟨by simp [hu, hv.rest], ?_⟩, by rw [hesc, hv']⟩
        have := hv.pos
        simp at this ⊢
        omega
      have hone : ∀ d : Nat, b ≠ '\\' → m = c.skip 1 →
          consumeBody extglobLexeme what start n d m = .ok c' →
            ∃ v, Closes c [')'] c' v ∧ escapesClosed v = true := by
        rintro d hb rfl hloop
        exact hrec [b] d (by simp [hr]) (by simp) (escapesClosed_cons hb) hloop
      unfold extglobLexeme at h₁
      split at h₁
      · rename_i heq
        obtain ⟨rfl, -⟩ := List.cons.inj (hr.symm.trans heq)
        obtain ⟨rfl, rfl⟩ : some DyckStep.U = s ∧ c.skip 1 = m := by simpa using h₁
        exact hone _ (by decide) rfl h
      · rename_i heq
        obtain ⟨rfl, -⟩ := List.cons.inj (hr.symm.trans heq)
        obtain ⟨rfl, rfl⟩ : some DyckStep.D = s ∧ c.skip 1 = m := by simpa using h₁
        simp only at h
        split at h
        · obtain rfl : c.skip 1 = c' := by simpa using h
          exact ⟨[], ⟨by simp [hr], by simp⟩, rfl⟩
        · exact hone _ (by decide) rfl h
      · rename_i heq
        obtain ⟨rfl, -⟩ := List.cons.inj (hr.symm.trans heq)
        obtain ⟨rfl, rfl⟩ : none = s ∧ consumeBackslash c = m := by simpa using h₁
        cases r with
        | nil =>
          -- a backslash at the end of the source leaves nothing to close the pattern
          have hend : (consumeBackslash c).rest = [] := by simp [consumeBackslash, hr]
          cases n <;> simp [consumeBody, hend] at h
        | cons a r =>
          refine hrec ['\\', a] _ ?_ ?_ (fun w => rfl) h
          · simp [consumeBackslash, hr]
          · simp [consumeBackslash, hr]
      · rename_i hne
        obtain ⟨rfl, rfl⟩ : none = s ∧ c.skip 1 = m := by simpa using h₁
        refine hone _ ?_ rfl h
        rintro rfl
        exact hne _ hr

theorem wordMarks_name (u y : List Char) (hu : ∀ b ∈ u, isNameByte b = true) :
    ∀ p : Nat, wordMarks ⟨p, u ++ y⟩ = wordMarks ⟨p + u.length, y⟩ := by
  induction u with
  | nil =>
    intro p
    rfl
  | cons b u ih =>
    intro p
    have hb := hu b (by simp)
    have hplain : isPlainByte b = true ∧ ¬ (b = '<' ∨ b = '>') := by
      constructor
      · by_contra hnot
        simp only [isPlainByte, List.contains_cons, List.contains_nil, Bool.or_false,
          Bool.not_eq_true', Bool.not_eq_false, Bool.or_eq_true, beq_iff_eq] at hnot
        rcases hnot with rfl | rfl | rfl | rfl | rfl <;> revert hb <;> decide
      · rintro (rfl | rfl) <;> revert hb <;> decide
    rw [wordMarks_plain (b := b) (r := u ++ y) rfl hplain.1 (fun h => absurd h hplain.2)]
    rw [show Cursor.skip ⟨p, b :: u ++ y⟩ 1 = (⟨p + 1, u ++ y⟩ : Text) from rfl,
      ih (fun a ha => hu a (by simp [ha]))]
    simp [Nat.add_assoc, Nat.add_comm 1]

/-- A `$` before a byte that starts no region is passed over. -/
theorem wordMarks_dollar_plain {p : Nat} {r : List Char}
    (hb : ['\'', '"', '(', '{'].contains b = false) (hs : isSpecialParam b = false) :
    wordMarks ⟨p, '$' :: b :: r⟩ = wordMarks ⟨p + 1, b :: r⟩ := by
  simp only [List.contains_cons, List.contains_nil, Bool.or_eq_false_iff, beq_eq_false_iff_ne]
    at hb
  obtain ⟨h₁, h₂, h₃, h₄, -⟩ := hb
  by_cases hname : isNameStart b = true
  · have hp : parseDollar (Cursor.skip ⟨p, '$' :: b :: r⟩ 1) =
        some (parseNamedParameter ⟨p + 1, b :: r⟩) := by
      simp [parseDollar, Cursor.skip, hname]
    rw [wordMarks_dollar_some (r := b :: r) rfl (by simpa using h₁) (by simpa using h₂) hp]
    simp only [parseNamedParameter, List.nil_append]
    have hsplit := List.takeWhile_append_dropWhile (p := isNameByte) (l := b :: r)
    have hdrop : List.drop (List.takeWhile isNameByte (b :: r)).length (b :: r) =
        List.dropWhile isNameByte (b :: r) := by
      have hcongr := congrArg (List.drop (List.takeWhile isNameByte (b :: r)).length) hsplit
      rw [List.drop_left] at hcongr
      exact hcongr.symm
    rw [Cursor.skip, hdrop, ← wordMarks_name _ _ (fun a ha => List.mem_takeWhile_imp ha), hsplit]
  · have hp : parseDollar (Cursor.skip ⟨p, '$' :: b :: r⟩ 1) = none := by
      simp [parseDollar, Cursor.skip, hname, hs]
    exact wordMarks_dollar_none (r := b :: r) rfl (by simpa using h₁) (by simpa using h₂) hp

theorem isNameStart_of_special (h : isSpecialParam b = true) :
    isNameStart b = false := by
  by_contra hname
  simp only [Bool.not_eq_false, isNameStart, Bool.or_eq_true, beq_iff_eq] at hname
  simp only [isSpecialParam, List.contains_cons, List.contains_nil, Bool.or_false,
    Bool.or_eq_true, beq_iff_eq] at h
  rcases hname with hname | rfl
  · rcases h with (rfl | rfl | rfl | rfl | rfl | rfl | rfl) | h
    all_goals first | (revert hname; decide) | skip
    rw [isAlpha_eq] at hname
    simp only [Char.isDigit, Bool.and_eq_true, Bool.or_eq_true, decide_eq_true_eq,
      UInt32.le_iff_toNat_le, ge_iff_le] at h hname
    simp at h hname
    omega
  · revert h
    decide

/-- The word parser's log begins with a region opened no later than offset `q`. -/
def OpensBefore (q : Nat) (log : List Mark) : Prop :=
  ∃ k p ms, log = .opened k p :: ms ∧ p ≤ q

theorem opens_here {A : Prop} {q p : Nat} {k : Region} {log ms : List Mark}
    (h : log = .opened k p :: ms) (hp : p ≤ q) :
    (false = true → A) ∧ (false = false → OpensBefore q log) :=
  ⟨nofun, fun _ => ⟨_, _, _, h, hp⟩⟩

/-- A text that opens a region opens it before its end; any other is passed over. -/
theorem wordMarks_pattern (x v : List Char) :
    ∀ p : Nat, escapesClosed v = true →
      (opensNoRegion v = true →
        wordMarks ⟨p, v ++ ')' :: x⟩ = wordMarks ⟨p + v.length, ')' :: x⟩) ∧
      (opensNoRegion v = false → OpensBefore (p + v.length) (wordMarks ⟨p, v ++ ')' :: x⟩)) := by
  fun_induction opensNoRegion v with
  | case1 => intro p _; simp
  | case2 b v ih =>
    intro p hesc
    have hstep := wordMarks_escape (c := ⟨p, '\\' :: b :: v ++ ')' :: x⟩) (r := v ++ ')' :: x) rfl
    have hlen : p + ('\\' :: b :: v).length = p + 2 + v.length := by simp; omega
    rw [hstep, hlen]
    exact ih (p + 2) hesc
  | case3 v => exact fun p _ => opens_here (wordMarks_single rfl) (by simp)
  | case4 v => exact fun p _ => opens_here (wordMarks_double rfl) (by simp)
  | case5 v => exact fun p _ => opens_here (wordMarks_backtick rfl) (by simp)
  | case6 v => exact fun p _ => opens_here (wordMarks_process rfl (.inl rfl)) (by simp)
  | case7 v => exact fun p _ => opens_here (wordMarks_process rfl (.inr rfl)) (by simp)
  | case8 b v hb =>
    intro p _
    simp only [List.contains_cons, List.contains_nil, Bool.or_false, Bool.or_eq_true,
      beq_iff_eq] at hb
    rcases hb with rfl | rfl | rfl | rfl
    · exact opens_here (wordMarks_ansi rfl) (by simp)
    · exact opens_here ((wordMarks_locale rfl).trans (wordMarks_double rfl))
        (by simp [Nat.add_assoc])
    · have hlog := wordMarks_dollar_some (c := ⟨p, '$' :: '(' :: v ++ ')' :: x⟩)
        (p := parseDollarParen ⟨p + 1, '(' :: v ++ ')' :: x⟩) rfl (by simp) (by simp) rfl
      unfold parseDollarParen at hlog
      simp only at hlog
      split at hlog
      · rename_i hparen
        refine opens_here hlog ?_
        cases v with
        | nil => simp [Cursor.skip] at hparen
        | cons a v => simp [Cursor.skip]; omega
      · exact opens_here hlog (by simp [Nat.add_assoc])
    · exact opens_here (wordMarks_dollar_some (c := ⟨p, '$' :: '{' :: v ++ ')' :: x⟩)
        (p := parseDollarBrace ⟨p + 1, '{' :: v ++ ')' :: x⟩) rfl (by simp) (by simp) rfl)
        (by simp [Nat.add_assoc])
  | case9 b v hb hs ih =>
    intro p hesc
    have hname := isNameStart_of_special hs
    have hother := opensNothing_of_param (.inr hs)
    have hp : parseDollar (Cursor.skip ⟨p, '$' :: b :: v ++ ')' :: x⟩ 1) =
        some (parseSpecialParameter ⟨p + 1, b :: v ++ ')' :: x⟩) := by
      simp [parseDollar, Cursor.skip, hother, hname, hs]
    have hstep := wordMarks_dollar_some (r := b :: v ++ ')' :: x) rfl
      (by simpa using hother.1) (by simp at hb ⊢; exact hb.2.1) hp
    have hlen : p + ('$' :: b :: v).length = p + 2 + v.length := by simp; omega
    rw [hstep, hlen]
    rw [escapesClosed_cons (by decide), escapesClosed_cons] at hesc
    · exact ih (p + 2) hesc
    · rintro rfl
      revert hs
      decide
  | case10 b v hb hs ih =>
    intro p hesc
    have hstep := wordMarks_dollar_plain (p := p) (b := b) (r := v ++ ')' :: x)
      (by simpa using hb) (by simpa using hs)
    have hlen : p + ('$' :: b :: v).length = p + 1 + (b :: v).length := by simp; omega
    rw [List.cons_append, List.cons_append, hstep, hlen]
    rw [escapesClosed_cons (by decide)] at hesc
    exact ih (p + 1) hesc
  | case11 b v h₁ h₂ h₃ h₄ h₅ h₆ h₇ ih =>
    intro p hesc
    have hb : b ≠ '\\' := by
      rintro rfl
      cases v with
      | nil => simp [escapesClosed] at hesc
      | cons a v => exact h₁ a v rfl rfl
    have hstep : wordMarks ⟨p, b :: v ++ ')' :: x⟩ = wordMarks ⟨p + 1, v ++ ')' :: x⟩ := by
      by_cases hd : b = '$'
      · subst hd
        obtain rfl : v = [] := by
          cases v with
          | nil => rfl
          | cons a v => exact absurd rfl (fun h => h₇ a v h rfl)
        exact wordMarks_dollar_none (r := ')' :: x) rfl (by simp) (by simp) rfl
      · refine wordMarks_plain (b := b) (r := v ++ ')' :: x) rfl ?_ ?_
        · simp only [isPlainByte, List.contains_cons, List.contains_nil, Bool.or_false,
            Bool.not_eq_true', Bool.or_eq_false_iff, beq_eq_false_iff_ne]
          exact ⟨h₂, h₃, hb, hd, h₄⟩
        · intro hproc hhead
          cases v with
          | nil => simp at hhead
          | cons a v =>
            obtain rfl : a = '(' := by simpa using hhead
            rcases hproc with rfl | rfl
            · exact h₅ v rfl rfl
            · exact h₆ v rfl rfl
    have hlen : p + (b :: v).length = p + 1 + v.length := by simp; omega
    rw [hstep, hlen]
    rw [escapesClosed_cons hb] at hesc
    exact ih (p + 1) hesc

theorem isExtglobOperator_plain (h : isExtglobOperator b = true) :
    isPlainByte b = true ∧ ¬ (b = '<' ∨ b = '>') := by
  simp only [isExtglobOperator, List.contains_cons, List.contains_nil, Bool.or_false,
    Bool.or_eq_true, beq_iff_eq] at h
  rcases h with rfl | rfl | rfl | rfl | rfl <;> decide

/-- **Extended patterns**: the logs agree exactly when the pattern opens no region. -/
theorem extglob_tracks {r v : List Char} (hc : c.rest = b :: '(' :: r)
    (hb : isExtglobOperator b = true) (hcl : Closes (c.skip 2) [')'] c' v)
    (hesc : escapesClosed v = true) :
    Tracks (opensNoRegion v) [] c' (wordMarks c) wordMarks := by
  obtain ⟨hplain, hproc⟩ := isExtglobOperator_plain hb
  have hskip : wordMarks c = wordMarks (c.skip 2) := by
    rw [wordMarks_plain hc hplain (fun h => absurd h hproc),
      wordMarks_plain (c := c.skip 1) (b := '(') (r := r) (by simp [hc]) (by decide)
        (fun h => by simp at h), skip_skip]
  have hd : c.skip 2 = ⟨c.pos + 2, v ++ ')' :: c'.rest⟩ := by
    have := hcl.rest
    simp only [List.append_assoc, List.singleton_append] at this
    rw [← this]
    rfl
  have hend : wordMarks ⟨c.pos + 2 + v.length, ')' :: c'.rest⟩ = wordMarks c' := by
    rw [wordMarks_plain (b := ')') (r := c'.rest) rfl (by decide) (fun h => by simp at h)]
    have := hcl.pos
    obtain ⟨p', x⟩ := c'
    simp only [Cursor.skip_pos, List.length_singleton] at this
    simp only [Cursor.skip, this, List.drop_succ_cons, List.drop_zero]
  obtain ⟨hgood, hbad⟩ := wordMarks_pattern c'.rest v (c.pos + 2) hesc
  rw [hskip, hd]
  refine ⟨fun h => by rw [hgood h, hend, List.nil_append], fun h more hmore heq => ?_⟩
  obtain ⟨k, p, ms, hlog, hp⟩ := hbad h
  rw [hlog, List.nil_append] at heq
  subst heq
  have := hcl.pos
  simp [Mark.offset] at hmore this
  omega

/-! ## 3. Words -/

/-- Behind an entry both logs share. -/
theorem Tracks.cons {cond : Bool} {ms log : List Mark} {c' : Text} {cont : Text → List Mark}
    (h : Tracks cond ms c' log cont) (m : Mark) : Tracks cond (m :: ms) c' (m :: log) cont where
  agree hc := by rw [h.agree hc, List.cons_append]
  differ hc more hmore heq := h.differ hc more hmore (List.cons.inj heq).2

theorem single_tracks (hc : c.rest = '\'' :: r)
    (h : consumeSingleQuoted (c.extend t) = .ok (c'.extend t)) :
    Tracks true (Region.singleQuoted.marks (c.skip 1) c') c' (wordMarks c) wordMarks := by
  obtain ⟨v, hv, hr, hp⟩ := consumeSingleQuoted_ok (b := '\'') (r := r ++ t) (by simp [hc]) h
  have hcl : Closes (c.skip 1) ['\''] c' v := by
    refine ⟨?_, by simpa using hp⟩
    have hrest : (c.skip 1).rest = (v ++ ['\'']) ++ c'.rest :=
      rest_of_extend (t := t) (by simpa [hc] using hr)
    simpa using hrest
  refine .region (wordMarks_single hc) hcl.passes.1 (parseSingleQuoted_reaches _) ?_
    (parseSingleQuoted_unclosed _) (fun x hx => wordMarks_eq_nil hx)
  simp [parseSingleQuoted_closesAt hv hcl]

/-- A double-quoted string, the lexer at its opening quote. -/
theorem double_tracks {depth : Nat} (hc : c.rest = '"' :: r)
    (h : consumeDoubleQuoted (dollarAt depth) (c.extend t) = .ok (ms, c'.extend t)) :
    Tracks (quotedAgrees (dollarAt depth) ((c.extend t).rest.length + 1) ((c.extend t).skip 1)) ms
      c' (wordMarks c) wordMarks := by
  obtain ⟨⟨ms', m⟩, h₁, h⟩ := bind_eq_ok.mp h
  obtain ⟨rfl, rfl⟩ : .opened .doubleQuoted (c.pos + 1) :: ms' ++ [.closed .doubleQuoted m.pos]
      = ms ∧ m = c'.extend t := by simpa using h
  rw [extend_skip (by simp [hc])] at h₁ ⊢
  rw [wordMarks_double hc]
  exact (doubleQuotedLoop_tracks (dollarAt_reads depth) _ _ _ _ _ _ wordMarks h₁).cons _

theorem ansi_tracks {r v : List Char} (hc : c.rest = '$' :: '\'' :: r)
    (hv : '\'' ∉ v) (hcl : Closes (c.skip 2) ['\''] c' v) :
    Tracks (escapesClosed v) (Region.singleQuoted.marks (c.skip 2) c') c' (wordMarks c)
      wordMarks :=
  .region (wordMarks_ansi hc) hcl.passes.1 (ansiCLoop_reaches _ _ _)
    (parseAnsiCQuoted_closesAt hv hcl)
    (ansiCLoop_unclosed _ _ _ (Nat.le_refl _)) (fun _ hx => wordMarks_eq_nil hx)

/-- A `$` of the word itself. -/
theorem dollarRead_tracks_word (h : DollarRead c ms c') :
    Tracks (dollarAgrees false c c') ms c' (wordMarks c) wordMarks := by
  obtain ⟨r, hr⟩ := dollarRead_exists h
  have hnq : isNameStart '\'' = false ∧ isSpecialParam '\'' = false ∧
      isNameStart '"' = false ∧ isSpecialParam '"' = false := by decide
  refine dollarRead_tracks h (fun s hs => ?_) (fun p hp => ?_) (fun hp hne => ?_)
    (fun x hx => wordMarks_eq_nil hx)
  · rw [dollarAgrees_quote hs, Bool.not_false, Bool.true_and]
    cases h with
    | quote hc hv hcl =>
      rw [bodyBetween_eq (n := 1) hcl rfl]
      exact ansi_tracks hc hv hcl
    | arith hc | command hc | brace hc => simp [hs] at hc
    | name hc hb | special hc _ hb =>
      obtain ⟨rfl, -⟩ : _ = '\'' ∧ _ := by simpa [hs, eq_comm] using hc
      simp [hnq] at hb
    | lone hc hb =>
      obtain rfl := (List.cons.inj (hs.symm.trans hc)).2
      exact absurd rfl (hb '\'' (by simp)).1
  · refine wordMarks_dollar_some hr ?_ ?_ hp
    all_goals
      intro hhead
      cases r with
      | nil => simp at hhead
      | cons b r =>
        obtain rfl := Option.some.inj hhead
        simp [parseDollar, hr, hnq] at hp
  · by_cases hq : r.head? = some '"'
    · cases r with
      | nil => simp at hq
      | cons b r =>
        obtain rfl := Option.some.inj hq
        exact wordMarks_locale hr
    · refine wordMarks_dollar_none hr ?_ hq hp
      intro hhead
      cases r with
      | nil => simp at hhead
      | cons b r =>
        obtain rfl := Option.some.inj hhead
        exact hne r hr

theorem backslash_tracks (hc : c.rest = '\\' :: r)
    (h : consumeBackslash (c.extend t) = c'.extend t) :
    Tracks true [] c' (wordMarks c) wordMarks := by
  refine .of_eq ?_
  cases r with
  | cons b r =>
    have hnext : c' = ⟨c.pos + 2, r⟩ := by
      refine extend_inj (t := t) ?_
      rw [← h]
      simp [consumeBackslash, hc, Cursor.extend]
    rw [wordMarks_escape hc, hnext, List.nil_append]
  | nil =>
    cases t with
    | nil =>
      have hnext : c' = c.skip 1 := by
        refine extend_inj (t := []) ?_
        rw [← h]
        simp [consumeBackslash, hc, Cursor.extend, Cursor.skip]
      rw [wordMarks_lone_backslash hc, hnext, List.nil_append]
    | cons b t =>
      -- the escaped byte would lie behind the token
      have hlen := congrArg (fun c : Text => c.rest.length) h
      simp [consumeBackslash, hc] at hlen
      omega

theorem plain_tracks (hc : c.rest = b :: r)
    (hb : isPlainByte b = true) (hbreak : isWordBreak b = false)
    (h : (c.extend t).skip 1 = c'.extend t) : Tracks true [] c' (wordMarks c) wordMarks := by
  rw [extend_skip (by simp [hc])] at h
  obtain rfl := extend_inj h
  refine .of_eq (wordMarks_plain hc hb ?_)
  rintro (rfl | rfl) <;> simp [isWordBreak] at hbreak

section PartAgreesEquations

variable {depth : Nat} {c c' : Text} {b : Char} {r : List Char}

theorem partAgrees_locale (hc : c.rest = '$' :: '"' :: r) (hr : r.head? ≠ some '(') :
    partAgrees depth c c' =
      quotedAgrees (dollarAt depth) ((c.skip 1).rest.length + 1) (c.skip 2) := by
  cases r with
  | nil => simp only [partAgrees, hc]
  | cons a r =>
    have ha : a ≠ '(' := by simpa using hr
    simp [partAgrees, hc, ha]

theorem partAgrees_dollar (hc : c.rest = '$' :: r)
    (hr : ∀ s, r = '"' :: s → ∃ s', s = '(' :: s') : partAgrees depth c c' = dollarAgrees false c c' := by
  cases r with
  | nil => simp only [partAgrees, hc]
  | cons a r =>
    by_cases ha : a = '"'
    · subst ha
      obtain ⟨s', rfl⟩ := hr r rfl
      rw [dollarAgrees_other hc (by simp)]
      simp only [partAgrees, hc]
    · simp [partAgrees, hc, ha]

theorem partAgrees_extglob (hc : c.rest = b :: '(' :: r) (hb : isExtglobOperator b = true) :
    partAgrees depth c c' = opensNoRegion (bodyBetween (c.skip 2) c' 1) := by
  have hq : b ≠ '"' := by
    rintro rfl
    simp [isExtglobOperator] at hb
  have hd : b ≠ '$' := by
    rintro rfl
    simp [isExtglobOperator] at hb
  simp [partAgrees, hc, hb]

theorem partAgrees_plain (hc : c.rest = b :: r) (hq : b ≠ '"') (hd : b ≠ '$')
    (hb : r.head? = some '(' → isExtglobOperator b = false) : partAgrees depth c c' = true := by
  unfold partAgrees
  split <;> grind

end PartAgreesEquations

/-- **One part of a word**: the logs agree on it exactly when `partAgrees` says so. -/
theorem readWordPart_tracks {depth : Nat} {t : List Char}
    {r : List Char} (hc : c.rest = b :: r) (hbreak : isWordBreak b = false)
    (h : readWordPart depth (c.extend t) = .ok (ms, c'.extend t)) :
    Tracks (partAgrees depth (c.extend t) (c'.extend t)) ms c' (wordMarks c) wordMarks := by
  have hce : (c.extend t).rest = b :: (r ++ t) := by simp [hc]
  have hskip : (c.extend t).skip 1 = (c.skip 1).extend t := extend_skip (by simp [hc])
  by_cases hsq : b = '\''
  · subst hsq
    rw [partAgrees_plain hce (by decide) (by decide) (fun _ => by decide)]
    simp only [readWordPart, hce] at h
    obtain ⟨m, h₁, h⟩ := bind_eq_ok.mp h
    obtain ⟨rfl, rfl⟩ : Region.singleQuoted.marks ((c.extend t).skip 1) m = ms ∧
        m = c'.extend t := by simpa using h
    exact single_tracks hc h₁
  by_cases hdq : b = '"'
  · subst hdq
    simp only [readWordPart, partAgrees, hce] at h ⊢
    have htr := double_tracks hc h
    rwa [hce] at htr
  by_cases hbt : b = '`'
  · subst hbt
    rw [partAgrees_plain hce (by decide) (by decide) (fun _ => by decide)]
    simp only [readWordPart, hce] at h
    obtain ⟨m, h₁, h⟩ := bind_eq_ok.mp h
    obtain ⟨rfl, rfl⟩ : Region.backtick.marks ((c.extend t).skip 1) m = ms ∧
        m = c'.extend t := by simpa using h
    exact backtick_tracks wordMarks hc h₁ (wordMarks_backtick hc) (fun x hx => wordMarks_eq_nil hx)
  by_cases hbs : b = '\\'
  · subst hbs
    rw [partAgrees_plain hce (by decide) (by decide) (fun _ => by decide)]
    simp only [readWordPart, hce] at h
    obtain ⟨rfl, hnext⟩ : [] = ms ∧ consumeBackslash (c.extend t) = c'.extend t := by simpa using h
    exact backslash_tracks hc hnext
  by_cases hdol : b = '$'
  · subst hdol
    simp only [readWordPart, hce] at h
    unfold consumeWordDollar at h
    split at h
    · rename_i hlocale
      rw [hskip] at h
      rw [hce] at hlocale
      cases r with
      | nil =>
        -- the quote would lie behind the token, and the string end there too
        have hne : ((c.skip 1).extend t).rest ≠ [] := by
          intro he
          simp only [Cursor.extend_rest, Cursor.skip_rest, hc] at he
          simp_all
        have hp := (dollarAt_quoted depth hne).of_ok h
        have := (passes_of_extend hp.1).length_lt
        simp [hc] at this
      | cons q r =>
        obtain rfl : q = '"' := by simpa using hlocale.1
        have hparen : (r ++ t).head? ≠ some '(' := hlocale.2
        rw [partAgrees_locale (by simpa using hce) hparen, wordMarks_locale hc]
        have htr := double_tracks (c := c.skip 1) (by simp [hc]; rfl) h
        rw [← hskip, skip_skip] at htr
        exact htr
    · rename_i hlocale
      rw [hce] at hlocale
      obtain ⟨hread, hagree⟩ := dollarRead_restrict (dollarAt_reads depth _ _ _ _ hce h)
      rw [partAgrees_dollar hce, hagree]
      · exact dollarRead_tracks_word hread
      · intro s hs
        have hhead : ¬ s.head? ≠ some '(' := by
          intro hx
          exact hlocale (by simpa [hs] using hx)
        cases s with
        | nil => simp at hhead
        | cons a s =>
          obtain rfl : a = '(' := by simpa using hhead
          exact ⟨s, rfl⟩
  · have hplain : isPlainByte b = true := by
      simp only [isPlainByte, List.contains_cons, List.contains_nil, Bool.or_false,
        Bool.not_eq_true', Bool.or_eq_false_iff, beq_eq_false_iff_ne]
      exact ⟨hsq, hdq, hbs, hdol, hbt⟩
    have hpart : readWordPart depth (c.extend t) = (do return ([], ← consumeWordPlain (c.extend t))) := by
      unfold readWordPart
      split <;> grind
    rw [hpart] at h
    obtain ⟨m, h₁, h⟩ := bind_eq_ok.mp h
    obtain ⟨rfl, rfl⟩ : [] = ms ∧ m = c'.extend t := by simpa using h
    unfold consumeWordPlain at h₁
    split at h₁
    · rename_i b' r' hr'
      obtain ⟨rfl, hrt⟩ := List.cons.inj (hce.symm.trans hr')
      split at h₁
      · rename_i hop
        obtain ⟨v, hcl, hesc⟩ := consumeBody_extglob h₁
        obtain ⟨hrest, hcl', hbody⟩ := closes_restrict (u := [b, '(']) hr' hcl
        rw [partAgrees_extglob hr' hop, bodyBetween_eq (n := 1) hcl rfl]
        exact extglob_tracks hrest hop hcl' hesc
      · rename_i hop
        rw [partAgrees_plain hce hdq hdol (fun _ => by simpa using hop)]
        exact plain_tracks hc hplain hbreak (by simpa using h₁)
    · rename_i hno
      rw [partAgrees_plain hce hdq hdol]
      · exact plain_tracks hc hplain hbreak (by simpa using h₁)
      · intro hhead
        cases hrt : r ++ t with
        | nil => simp [hrt] at hhead
        | cons a l =>
          obtain rfl : a = '(' := by simpa [hrt] using hhead
          exact absurd (hce.trans (by rw [hrt])) (hno b l)

/-- **The words of the lexer**: over all parts of a word the logs agree exactly when
    `wordAgrees` says so. -/
theorem readWordLoop_tracks (depth n : Nat) :
    ∀ (c c' : Text) (t : List Char) (ms : List Mark),
      readWordLoop depth n (c.extend t) = .ok (ms, c'.extend t) →
        Tracks (wordAgrees depth n (c.extend t)) ms c' (wordMarks c) wordMarks := by
  induction n with
  | zero =>
    intro c c' t ms h
    simp [readWordLoop] at h
  | succ n ih =>
    intro c c' t ms h
    -- at the end of the word both logs are at their end
    have hstop : .ok ([], c.extend t) = (.ok (ms, c'.extend t) : MarkedScan) →
        Tracks true ms c' (wordMarks c) wordMarks := by
      intro heq
      obtain ⟨rfl, hcc⟩ : [] = ms ∧ c.extend t = c'.extend t := by simpa using heq
      obtain rfl := extend_inj hcc
      exact .of_eq rfl
    unfold readWordLoop at h
    split at h
    · rename_i hr
      simp only [wordAgrees, hr]
      exact hstop h
    · rename_i b l hr
      simp only [wordAgrees, hr]
      split at h
      · rename_i hbreak
        rw [if_pos hbreak]
        exact hstop h
      · rename_i hbreak
        rw [if_neg hbreak]
        obtain ⟨⟨ms₁, m⟩, h₁, h⟩ := bind_eq_ok.mp h
        obtain ⟨⟨ms₂, m₂⟩, h₂, h⟩ := bind_eq_ok.mp h
        obtain ⟨rfl, rfl⟩ : ms₁ ++ ms₂ = ms ∧ m₂ = c'.extend t := by simpa using h
        obtain ⟨hreach, hms⟩ := (readWordLoop_returns _ _ _).of_ok h₂
        obtain ⟨m, rfl⟩ := exists_of_reaches_extend hreach
        have hpass := passes_of_extend ((readWordPart_returns depth (by rw [hr]; simp)).of_ok h₁).1
        obtain ⟨a, r, hc⟩ : ∃ a r, c.rest = a :: r :=
          List.exists_cons_of_length_pos (by have := hpass.length_lt; omega)
        obtain ⟨rfl, -⟩ : a = b ∧ _ := by simpa [hc] using hr
        simp only [h₁]
        exact (readWordPart_tracks hc (by simpa using hbreak) h₁).trans (ih m c' t ms₂ h₂)
          (reaches_of_extend hreach).pos_le hms

/-! ## 4. Tokens -/

/-- The word parser, on the text of the token, logs what the lexer logged. -/
def ExtentsAgree (source : List Char) (out : Lexed) : Prop :=
  (parseWordParts out.token.span.start (out.token.text source)).marks = out.marks

/-- The condition for a token of the lexer `lx`. -/
def tokenAgrees (lx : Lexer) (tok : Token) : Bool :=
  let c : Text := ⟨tok.span.start, lx.source.drop tok.span.start⟩
  match c.rest with
  | '<' :: '(' :: _ => commandBalanced (bodyBetween (c.skip 2) ⟨tok.span.stop, []⟩ 1)
  | '>' :: '(' :: _ => commandBalanced (bodyBetween (c.skip 2) ⟨tok.span.stop, []⟩ 1)
  | _ => wordAgrees lx.substDepth (c.rest.length + 1) c

/-- A stretch that takes the whole token decides the equality of the logs. -/
theorem Tracks.marks_eq_iff {cond : Bool} {pos p' : Nat} {text : List Char}
    (h : Tracks cond ms ⟨p', []⟩ (wordMarks ⟨pos, text⟩) wordMarks) :
    (parseWordParts pos text).marks = ms ↔ cond = true := by
  have hmarks : (parseWordParts pos text).marks = wordMarks ⟨pos, text⟩ := rfl
  rw [hmarks]
  constructor
  · intro heq
    by_contra hcond
    exact h.differ (by simpa using hcond) [] (by simp) (by simpa using heq.symm)
  · intro hcond
    simpa using h.agree hcond

/-- The bytes between two cursors of a source. -/
theorem token_text (kind : TokenKind) {source : List Char}
    (hc : c.rest = source.drop c.pos) (h : c.Reaches c') {text : List Char}
    (ht : c.rest = text ++ c'.rest) :
    Token.text ⟨kind, ⟨c.pos, c'.pos⟩⟩ source = text := by
  have hlen : c'.pos - c.pos = text.length := by
    have hadd := h.pos_add_length
    rw [ht, List.length_append] at hadd
    omega
  simp only [Token.text, ← hc, hlen, ht, List.take_left]

theorem extend_split {text : List Char} (ht : c.rest = text ++ c'.rest) :
    c = (⟨c.pos, text⟩ : Text).extend c'.rest := by
  simp [Cursor.extend, ← ht]

theorem readWord_extents {lx : Lexer} {c : Text} {out : Lexed}
    (hc : c.rest = lx.source.drop c.pos)
    (hhead : ∀ b ∈ c.rest.head?, b ≠ '<' ∧ b ≠ '>') (h : readWord lx c = .ok out) :
    ExtentsAgree lx.source out ↔ tokenAgrees lx out.token = true := by
  obtain ⟨⟨ms, c'⟩, h₁, h⟩ := bind_eq_ok.mp h
  obtain rfl : (⟨makeWordToken c c', ms, lx.moveTo c'⟩ : Lexed) = out := by simpa using h
  obtain ⟨hreach, -⟩ := (readWordLoop_returns _ _ _).of_ok h₁
  obtain ⟨text, ht, hp⟩ := hreach
  have htext := token_text (makeWordToken c c').kind hc ⟨text, ht, hp⟩ ht
  have hcond : tokenAgrees lx (makeWordToken c c') =
      wordAgrees lx.substDepth (c.rest.length + 1) c := by
    have hcur : (⟨c.pos, lx.source.drop c.pos⟩ : Text) = c := by rw [← hc]
    simp only [tokenAgrees, makeWordToken, spanFrom, hcur]
    split
    · rename_i heq
      exact absurd rfl (hhead '<' (by simp [hc, heq])).1
    · rename_i heq
      exact absurd rfl (hhead '>' (by simp [hc, heq])).2
    · rw [hc]
  rw [hcond]
  have hloop : readWordLoop lx.substDepth (c.rest.length + 1)
      ((⟨c.pos, text⟩ : Text).extend c'.rest) =
      .ok (ms, (⟨c'.pos, []⟩ : Text).extend c'.rest) := by
    rw [← extend_split ht]
    exact h₁
  have htr := readWordLoop_tracks _ _ _ _ _ _ hloop
  rw [← extend_split ht] at htr
  unfold ExtentsAgree
  rw [show (makeWordToken c c').text lx.source = text from htext]
  exact htr.marks_eq_iff

theorem processSubst_extents {lx : Lexer} {c : Text} {out : Lexed} {s : List Char}
    (hc : c.rest = lx.source.drop c.pos) (hb : b = '<' ∨ b = '>') (hs : c.rest = b :: '(' :: s)
    (h : processSubstToken lx c = .ok out) :
    ExtentsAgree lx.source out ↔ tokenAgrees lx out.token = true := by
  obtain ⟨⟨ms, c'⟩, h₁, h⟩ := bind_eq_ok.mp h
  obtain rfl : (⟨⟨.word false, spanFrom c' c.pos⟩, ms, lx.moveTo c'⟩ : Lexed) = out := by
    simpa using h
  obtain ⟨c₁, h₂, h₁⟩ := bind_eq_ok.mp h₁
  obtain ⟨rfl, rfl⟩ : Region.process.marks (c.skip 2) c₁ = ms ∧ c₁ = c' := by simpa using h₁
  obtain ⟨v, hcl⟩ := (consumeBody_returns
    (commandLexeme_reads (dollarAt_returns _ 0)) _ _ _ _ _).of_ok h₂
  have ht : c.rest = (b :: '(' :: v ++ [')']) ++ c₁.rest := by
    have hrest := hcl.rest
    simp only [Cursor.skip_rest, hs, List.drop_succ_cons, List.drop_zero] at hrest
    rw [hs, hrest]
    simp
  have hreach : c.Reaches c₁ := (Cursor.Reaches.skip (by simp [hs])).trans hcl.passes.1
  have htext := token_text (.word false) hc hreach ht
  have hcur : (⟨c.pos, lx.source.drop c.pos⟩ : Text) = c := by rw [← hc]
  have hbody : bodyBetween (c.skip 2) ⟨c₁.pos, []⟩ 1 = v := by
    have := bodyBetween_eq (n := 1) hcl rfl
    exact this
  have hcond : tokenAgrees lx ⟨.word false, spanFrom c₁ c.pos⟩ = commandBalanced v := by
    simp only [tokenAgrees, spanFrom, hcur, hbody]
    rcases hb with rfl | rfl <;> simp only [← hc, hs]
  rw [hcond]
  -- on the token alone the body ends at the end of the text
  have hcl' : Closes ((⟨c.pos, b :: '(' :: v ++ [')']⟩ : Text).skip 2) [')'] ⟨c₁.pos, []⟩ v :=
    ⟨by simp [Cursor.skip], by simpa using hcl.pos⟩
  have htr : Tracks (commandBalanced v) (Region.process.marks (c.skip 2) c₁) ⟨c₁.pos, []⟩
      (wordMarks ⟨c.pos, b :: '(' :: v ++ [')']⟩) wordMarks :=
    .region (wordMarks_process (r := v ++ [')']) rfl hb) hcl'.passes.1
      (parseBody_reaches cmdSubstLexeme_consumes _) (parseCommand_closesAt hcl')
      (parseBody_unclosed _ _) (fun _ hx => wordMarks_eq_nil hx)
  unfold ExtentsAgree
  rw [show Token.text ⟨.word false, spanFrom c₁ c.pos⟩ lx.source = _ from htext]
  exact htr.marks_eq_iff

/-- A word token comes from `read_word` or from `consume_process_subst`, at a cursor of the
    source. -/
theorem nextNormalToken_word (n : Nat) :
    ∀ (lx : Lexer) (out : Lexed) (r : Bool), nextNormalToken n lx = .ok out →
      out.token.kind = .word r →
        ∃ (lx' : Lexer) (c : Text), lx'.source = lx.source ∧ lx'.substDepth = lx.substDepth ∧
          c.rest = lx.source.drop c.pos ∧
          (((∀ b ∈ c.rest.head?, b ≠ '<' ∧ b ≠ '>') ∧ readWord lx' c = .ok out) ∨
            ∃ b s, (b = '<' ∨ b = '>') ∧ c.rest = b :: '(' :: s ∧
              processSubstToken lx' c = .ok out) := by
  induction n with
  | zero =>
    intro lx out r h
    simp [nextNormalToken] at h
  | succ n ih =>
    intro lx out r h hk
    have hreach := skipBlanks_reaches lx.cursor
    have hsrc : (skipBlanks lx.cursor).rest = lx.source.drop (skipBlanks lx.cursor).pos := by
      have := congrArg Cursor.rest (cursor_moveTo hreach)
      exact this.symm
    unfold nextNormalToken at h
    simp only at h
    split at h
    case h_6 => 
      obtain ⟨lx', c, h₁, h₂, h₃, h₄⟩ := ih _ out r h hk
      exact ⟨lx', c, h₁, h₂, h₃, h₄⟩
    case h_7 =>
      unfold ampToken at h
      split at h <;> (obtain rfl := Except.ok.inj h; simp [operator] at hk)
    case h_8 =>
      unfold pipeToken at h
      split at h <;> (obtain rfl := Except.ok.inj h; simp [operator] at hk)
    case h_9 t ht =>
      unfold greaterToken at h
      split at h
      · rename_i s hs
        obtain ⟨rfl, -⟩ := List.cons.inj (hs.symm.trans ht)
        exact ⟨lx, _, rfl, rfl, hsrc, .inr ⟨_, _, .inr rfl, hs, h⟩⟩
      all_goals (obtain rfl := Except.ok.inj h; simp [operator] at hk)
    case h_10 t ht =>
      unfold lessToken at h
      split at h
      · rename_i s hs
        obtain ⟨rfl, -⟩ := List.cons.inj (hs.symm.trans ht)
        exact ⟨lx, _, rfl, rfl, hsrc, .inr ⟨_, _, .inl rfl, hs, h⟩⟩
      all_goals (obtain rfl := Except.ok.inj h; simp [operator] at hk)
    case h_11 h₉ h₁₀ =>
      refine ⟨lx, _, rfl, rfl, hsrc, .inl ⟨?_, h⟩⟩
      intro b hb
      cases hr : (skipBlanks lx.cursor).rest with
      | nil => simp [hr] at hb
      | cons a l =>
        obtain rfl : a = b := by simpa [hr] using hb
        exact ⟨fun he => h₁₀ l (by rw [hr, he]), fun he => h₉ l (by rw [hr, he])⟩
    all_goals (obtain rfl := Except.ok.inj h; simp [operator] at hk)

/-- **Lexer and word parser agree on the extents of a word exactly when its regions are
    balanced for both.**  For every state of the lexer and every word token it returns,
    `parse_word_parts` on the token's text opens and closes the same regions at the same
    offsets if and only if `tokenAgrees` holds at the token. -/
theorem nextToken_extents_iff (lx : Lexer) (out : Lexed) (r : Bool)
    (h : nextToken lx = .ok out) (hk : out.token.kind = .word r) :
    ExtentsAgree lx.source out ↔ tokenAgrees lx out.token = true := by
  obtain ⟨lx₀, hsrc₀, hdep₀, h₀⟩ : ∃ lx₀ : Lexer, lx₀.source = lx.source ∧
      lx₀.substDepth = lx.substDepth ∧ nextNormalToken 2 lx₀ = .ok out := by
    unfold nextToken at h
    split at h
    · exact ⟨{ lx.moveTo (consumeComment lx.cursor) with mode := .normal }, rfl, rfl, h⟩
    · exact ⟨lx, rfl, rfl, h⟩
  obtain ⟨lx', c, hsrc, hdep, hc, hcase⟩ := nextNormalToken_word 2 lx₀ out r h₀ hk
  rw [hsrc₀] at hsrc
  rw [hdep₀] at hdep
  rw [hsrc₀, ← hsrc] at hc
  have hcond : tokenAgrees lx out.token = tokenAgrees lx' out.token := by
    simp only [tokenAgrees, hsrc, hdep]
  rw [hcond, ← hsrc]
  rcases hcase with ⟨hhead, hread⟩ | ⟨b, s, hb, hs, hproc⟩
  · exact readWord_extents hc hhead hread
  · exact processSubst_extents hc hb hs hproc

/-- `$((1 + (2 * 3)))`, as in the lexer's own test `arithmetic_nested_single_parens`. -/
def nestedParens : List Char := "$((1 + (2 * 3)))".toList

/-- The one word of that source: for the lexer the expansion takes all sixteen bytes. -/
def nestedParensLexed : Lexed :=
  ⟨⟨.word false, ⟨0, 16⟩⟩, [.opened .arithmetic 3, .closed .arithmetic 16],
    { Lexer.new nestedParens with pos := 16 }⟩

/-- **The scanners disagree on a nested parenthesis**: the word parser closes the
    expansion at the first `))`, at offset 15, and leaves a literal `)`. -/
theorem nestedParens_extents_differ :
    nextToken (Lexer.new nestedParens) = .ok nestedParensLexed ∧
      nestedParensLexed.token.kind = .word false ∧
      ¬ ExtentsAgree nestedParens nestedParensLexed := by
  refine ⟨rfl, rfl, ?_⟩
  unfold ExtentsAgree
  decide

/-- The condition is met, and the extents agree, on a word with a balanced substitution
    inside double quotes. -/
theorem quotedCommand_extents_agree :
    ExtentsAgree "\"$(f a)\"".toList
      ⟨⟨.word false, ⟨0, 8⟩⟩,
        [.opened .doubleQuoted 1, .opened .command 3, .closed .command 7,
          .closed .doubleQuoted 8],
        { Lexer.new "\"$(f a)\"".toList with pos := 8 }⟩ :=
  (nextToken_extents_iff (Lexer.new "\"$(f a)\"".toList) _ false rfl rfl).mpr (by decide)

end Wasmsh.Extents

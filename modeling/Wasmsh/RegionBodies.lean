import Wasmsh.WordMarks

/-!
# Which bodies the word parser closes at their end

The word parser looks for the end of a region with a scanner of its own.  For each
kind of region this module says, of the body alone, when that scanner stops at the
delimiter behind the body and not before or after it:

* `$( )`, `<( )`, `>( )`: the parentheses outside flat quotes are balanced and no quote
  is left open (`commandBalanced`);
* `$(( ))`: the pairs `((` and `))`, read from the left, are balanced and no single `)`
  is left at the end (`arithBalanced`);
* `${ }`: the braces outside escapes are balanced (`braceBalanced`);
* `$' '`: no escape is left open at the end (`escapesClosed`).
-/

namespace Wasmsh.WordParser

open Scanning DyckStep

variable {c c' : Text} {v : List Char}

/-! ## 1. Bracket steps of a body -/

/-- The quote a flat scan is inside of. -/
inductive Quote where
  | outside
  | single
  | double
  deriving DecidableEq, Repr

/-- The parentheses of a body outside quotes; `none` when a quote is left open. -/
def parenSteps : Quote → List Char → Option (List DyckStep)
  | .outside, [] => some []
  | .outside, '(' :: v => (parenSteps .outside v).map (U :: ·)
  | .outside, ')' :: v => (parenSteps .outside v).map (D :: ·)
  | .outside, '\'' :: v => parenSteps .single v
  | .outside, '"' :: v => parenSteps .double v
  | .outside, _ :: v => parenSteps .outside v
  | .single, [] => none
  | .single, '\'' :: v => parenSteps .outside v
  | .single, _ :: v => parenSteps .single v
  | .double, [] => none
  | .double, '"' :: v => parenSteps .outside v
  | .double, '\\' :: _ :: v => parenSteps .double v
  | .double, _ :: v => parenSteps .double v

/-- The braces of a body outside escapes; `none` when an escape is left open. -/
def braceSteps : List Char → Option (List DyckStep)
  | [] => some []
  | '{' :: v => (braceSteps v).map (U :: ·)
  | '}' :: v => (braceSteps v).map (D :: ·)
  | '\\' :: _ :: v => braceSteps v
  | ['\\'] => none
  | _ :: v => braceSteps v

/-- The pairs `((` and `))` of a body; `none` when it ends in a `)` without partner. -/
def pairSteps : List Char → Option (List DyckStep)
  | [] => some []
  | '(' :: '(' :: v => (pairSteps v).map (U :: ·)
  | ')' :: ')' :: v => (pairSteps v).map (D :: ·)
  | [')'] => none
  | _ :: v => pairSteps v

/-- The steps are there and balanced. -/
def stepsBalanced (steps : Option (List DyckStep)) : Bool := steps.any fun ts => decide (Balanced ts)

def commandBalanced (v : List Char) : Bool := stepsBalanced (parenSteps .outside v)

def braceBalanced (v : List Char) : Bool := stepsBalanced (braceSteps v)

def arithBalanced (v : List Char) : Bool := stepsBalanced (pairSteps v)

/-- No backslash is left alone at the end. -/
def escapesClosed : List Char → Bool
  | [] => true
  | '\\' :: _ :: v => escapesClosed v
  | ['\\'] => false
  | _ :: v => escapesClosed v

theorem stepsBalanced_iff (steps : Option (List DyckStep)) :
    stepsBalanced steps = true ↔ ∃ ts, steps = some ts ∧ Balanced ts := by
  cases steps <;> simp [stepsBalanced]

/-! ## 2. Substitutions -/

theorem braceLexeme_readsSteps (x : List Char) :
    ReadsSteps braceLexeme ('}' :: x) braceSteps where
  nil := rfl
  cons p v hv := by
    fun_cases braceSteps v with
    | case1 => exact absurd rfl hv
    | case2 v => exact .inl ⟨['{'], v, by simp [braceLexeme, Cursor.skip]⟩
    | case3 v => exact .inl ⟨['}'], v, by simp [braceLexeme, Cursor.skip]⟩
    | case4 b v => exact .inl ⟨['\\', b], v, by simp [braceLexeme]⟩
    | case5 => exact .inr ⟨by simp [braceLexeme], rfl⟩
    | case6 b v h₁ h₂ h₃ h₄ =>
      have hb : b ≠ '\\' := by
        rintro rfl
        cases v with
        | nil => exact h₄ rfl rfl
        | cons a v => exact h₃ a v rfl rfl
      have hstep : braceLexeme ⟨p, b :: (v ++ '}' :: x)⟩ = (none, ⟨p + 1, v ++ '}' :: x⟩) := by
        unfold braceLexeme
        split <;> simp_all [Cursor.skip]
      exact .inl ⟨[b], v, by simp [hstep]⟩

theorem arithLexeme_readsSteps (x : List Char) :
    ReadsSteps arithLexeme (')' :: ')' :: x) pairSteps where
  nil := rfl
  cons p v hv := by
    fun_cases pairSteps v with
    | case1 => exact absurd rfl hv
    | case2 v => exact .inl ⟨['(', '('], v, by simp [arithLexeme, Cursor.skip]⟩
    | case3 v => exact .inl ⟨[')', ')'], v, by simp [arithLexeme, Cursor.skip]⟩
    | case4 => exact .inr ⟨by simp [arithLexeme, Cursor.skip], rfl⟩
    | case5 b v h₁ h₂ h₃ =>
      have hstep : arithLexeme ⟨p, b :: (v ++ ')' :: ')' :: x)⟩ =
          (none, ⟨p + 1, v ++ ')' :: ')' :: x⟩) := by
        unfold arithLexeme
        split
        · cases v <;> simp_all
        · cases v <;> simp_all
        · rfl
      exact .inl ⟨[b], v, by simp [hstep]⟩

/-- A single quote inside a body is closed inside it, or hides its end. -/
theorem skipSingleQuoted_inside (p : Nat) (v x : List Char) :
    (∃ w v', v = w ++ '\'' :: v' ∧
      skipSingleQuoted ⟨p, '\'' :: (v ++ ')' :: x)⟩ = ⟨p + (w.length + 2), v' ++ ')' :: x⟩ ∧
      parenSteps .single v = parenSteps .outside v') ∨
    (p + 1 + v.length < (skipSingleQuoted ⟨p, '\'' :: (v ++ ')' :: x)⟩).pos ∧
      parenSteps .single v = none) := by
  induction v generalizing p with
  | nil =>
    refine .inr ⟨?_, rfl⟩
    simp only [skipSingleQuoted, parseSingleQuoted]
    split <;> simp [Cursor.atEnd]
  | cons b v ih =>
    by_cases hb : b = '\''
    · subst hb
      exact .inl ⟨[], v, by simp [skipSingleQuoted, parseSingleQuoted, Cursor.skip, parenSteps]⟩
    · have hstep : skipSingleQuoted ⟨p, '\'' :: (b :: v ++ ')' :: x)⟩ =
          skipSingleQuoted ⟨p + 1, '\'' :: (v ++ ')' :: x)⟩ := by
        simp [skipSingleQuoted, parseSingleQuoted, Cursor.skip, hb]
        split <;> simp [Cursor.atEnd] <;> omega
      have hparen : parenSteps .single (b :: v) = parenSteps .single v := by
        simp [parenSteps]
      rw [hstep, hparen]
      rcases ih (p + 1) with ⟨w, v', rfl, hskip, hsteps⟩ | ⟨hover, hsteps⟩
      · exact .inl ⟨b :: w, v', by simp, by rw [hskip]; simp; omega, hsteps⟩
      · exact .inr ⟨by simp; omega, hsteps⟩

/-- The same for a double quote, the loop already inside it. -/
theorem skipDoubleQuoted_inside (n : Nat) :
    ∀ (p : Nat) (v x : List Char), v.length ≤ n →
      (∃ w v', v = w ++ '"' :: v' ∧
        skipDoubleQuotedLoop p (v ++ ')' :: x) = ⟨p + (w.length + 1), v' ++ ')' :: x⟩ ∧
        parenSteps .double v = parenSteps .outside v') ∨
      (p + v.length < (skipDoubleQuotedLoop p (v ++ ')' :: x)).pos ∧
        parenSteps .double v = none) := by
  induction n with
  | zero =>
    intro p v x hn
    obtain rfl : v = [] := List.length_eq_zero_iff.mp (by omega)
    have hle := (skipDoubleQuotedLoop_reaches (p + 1) x).pos_le
    refine .inr ⟨?_, rfl⟩
    simp [skipDoubleQuotedLoop] at hle ⊢
    omega
  | succ n ih =>
    intro p v x hn
    cases v with
    | nil => exact ih p [] x (by simp)
    | cons b v =>
      rw [List.length_cons] at hn
      by_cases hq : b = '"'
      · subst hq
        exact .inl ⟨[], v, by simp [skipDoubleQuotedLoop, parenSteps]⟩
      by_cases he : b = '\\'
      · subst he
        cases v with
        | nil =>
          -- the escape swallows the delimiter itself
          have hle := (skipDoubleQuotedLoop_reaches (p + 2) x).pos_le
          refine .inr ⟨?_, rfl⟩
          simp [skipDoubleQuotedLoop] at hle ⊢
          omega
        | cons a v =>
          rcases ih (p + 2) v x (by simp at hn; omega) with
            ⟨w, v', rfl, hskip, hsteps⟩ | ⟨hover, hsteps⟩
          · refine .inl ⟨'\\' :: a :: w, v', by simp, ?_, by simpa [parenSteps] using hsteps⟩
            rw [List.cons_append, List.cons_append, skipDoubleQuotedLoop, hskip]
            simp
            omega
          · refine .inr ⟨?_, by simpa [parenSteps] using hsteps⟩
            simp [skipDoubleQuotedLoop]
            omega
      · have hloop : skipDoubleQuotedLoop p (b :: (v ++ ')' :: x)) =
            skipDoubleQuotedLoop (p + 1) (v ++ ')' :: x) := by
          rw [skipDoubleQuotedLoop] <;> simp_all
        have hparen : parenSteps .double (b :: v) = parenSteps .double v := by
          rw [parenSteps] <;> simp_all
        rw [List.cons_append, hloop, hparen]
        rcases ih (p + 1) v x (by omega) with ⟨w, v', rfl, hskip, hsteps⟩ | ⟨hover, hsteps⟩
        · exact .inl ⟨b :: w, v', by simp, by rw [hskip]; simp; omega, hsteps⟩
        · exact .inr ⟨by simp; omega, hsteps⟩

theorem cmdSubstLexeme_readsSteps (x : List Char) :
    ReadsSteps cmdSubstLexeme (')' :: x) (parenSteps .outside) where
  nil := rfl
  cons p v hv := by
    cases v with
    | nil => exact absurd rfl hv
    | cons b v =>
      by_cases hopen : b = '('
      · subst hopen
        exact .inl ⟨['('], v, by simp [cmdSubstLexeme, parenSteps, Cursor.skip]⟩
      by_cases hclose : b = ')'
      · subst hclose
        exact .inl ⟨[')'], v, by simp [cmdSubstLexeme, parenSteps, Cursor.skip]⟩
      by_cases hsq : b = '\''
      · subst hsq
        have hstep : cmdSubstLexeme ⟨p, '\'' :: (v ++ ')' :: x)⟩ =
          (none, skipSingleQuoted ⟨p, '\'' :: (v ++ ')' :: x)⟩) := rfl
        rcases skipSingleQuoted_inside p v x with ⟨w, v', rfl, hskip, hsteps⟩ | ⟨hover, hsteps⟩
        · refine .inl ⟨'\'' :: w ++ ['\''], v', by simp, by simp, ?_, ?_⟩
          · rw [List.cons_append, hstep, hskip]
            simp
          · rw [List.cons_append, hstep]
            simpa [parenSteps] using hsteps
        · refine .inr ⟨?_, hsteps⟩
          rw [List.cons_append, hstep]
          simp
          omega
      by_cases hdq : b = '"'
      · subst hdq
        have hstep : cmdSubstLexeme ⟨p, '"' :: (v ++ ')' :: x)⟩ =
          (none, skipDoubleQuotedLoop (p + 1) (v ++ ')' :: x)) := rfl
        rcases skipDoubleQuoted_inside v.length (p + 1) v x (Nat.le_refl _) with
          ⟨w, v', rfl, hskip, hsteps⟩ | ⟨hover, hsteps⟩
        · refine .inl ⟨'"' :: w ++ ['"'], v', by simp, by simp, ?_, ?_⟩
          · rw [List.cons_append, hstep, hskip]
            simp
            omega
          · rw [List.cons_append, hstep]
            simpa [parenSteps] using hsteps
        · refine .inr ⟨?_, hsteps⟩
          rw [List.cons_append, hstep]
          simp
          omega
      · have hstep : cmdSubstLexeme ⟨p, b :: (v ++ ')' :: x)⟩ =
            (none, ⟨p + 1, v ++ ')' :: x⟩) := by
          unfold cmdSubstLexeme
          split <;> simp_all [Cursor.skip]
        have hparen : parenSteps .outside (b :: v) = parenSteps .outside v := by
          rw [parenSteps] <;> simp_all
        exact .inl ⟨[b], v, by simp [hstep, hparen]⟩

/-- The region is closed, and at that cursor. -/
def Body.ClosesAt {β : Type} (b : Body β) (c' : Text) : Prop := b.closed = true ∧ b.next = c'

theorem parseBody_closesAt {lexeme : Lexeme Char} (hlex : lexeme.Consumes)
    {steps : List Char → Option (List DyckStep)} {closing v : List Char}
    (hsteps : ReadsSteps lexeme (closing ++ c'.rest) steps)
    (hclose : ∀ k : Text, (k.rest ≠ [] ∧ lexeme k = (some D, c')) ↔
      (k.rest = closing ++ c'.rest ∧ k.pos + closing.length = c'.pos))
    (h : Closes c closing c' v) :
    (parseBody lexeme c).ClosesAt c' ↔ stepsBalanced (steps v) = true := by
  rw [stepsBalanced_iff, ← findClose_closes_iff hlex hsteps hclose h (Nat.le_refl _)]
  unfold parseBody Body.ClosesAt
  split
  · rename_i k w hk
    simp [hk]
  · rename_i hk
    simp [hk]

theorem parseBody_unclosed (lexeme : Lexeme Char) (c : Text)
    (h : (parseBody lexeme c).closed = false) : (parseBody lexeme c).next.rest = [] := by
  unfold parseBody at h ⊢
  split at h <;> simp_all

theorem parseCommand_closesAt (h : Closes c [')'] c' v) :
    (parseBody cmdSubstLexeme c).ClosesAt c' ↔ commandBalanced v = true := by
  refine parseBody_closesAt cmdSubstLexeme_consumes (cmdSubstLexeme_readsSteps _) ?_ h
  intro k
  obtain ⟨kp, kr⟩ := k
  obtain ⟨p, x⟩ := c'
  constructor
  · rintro ⟨-, hk⟩
    unfold cmdSubstLexeme at hk
    split at hk <;> simp_all [Cursor.skip]
  · rintro ⟨hr, hp⟩
    simp_all [cmdSubstLexeme, Cursor.skip]

theorem parseBrace_closesAt (h : Closes c ['}'] c' v) :
    (parseBody braceLexeme c).ClosesAt c' ↔ braceBalanced v = true := by
  refine parseBody_closesAt braceLexeme_consumes (braceLexeme_readsSteps _) ?_ h
  intro k
  obtain ⟨kp, kr⟩ := k
  obtain ⟨p, x⟩ := c'
  constructor
  · rintro ⟨-, hk⟩
    unfold braceLexeme at hk
    split at hk <;> simp_all [Cursor.skip]
  · rintro ⟨hr, hp⟩
    simp_all [braceLexeme, Cursor.skip]

theorem parseArith_closesAt (h : Closes c [')', ')'] c' v) :
    (parseBody arithLexeme c).ClosesAt c' ↔ arithBalanced v = true := by
  refine parseBody_closesAt arithLexeme_consumes (arithLexeme_readsSteps _) ?_ h
  intro k
  obtain ⟨kp, kr⟩ := k
  obtain ⟨p, x⟩ := c'
  constructor
  · rintro ⟨-, hk⟩
    unfold arithLexeme at hk
    split at hk <;> simp_all [Cursor.skip]
  · rintro ⟨hr, hp⟩
    simp_all [arithLexeme, Cursor.skip]

/-! ## 3. Quotes and backticks -/

theorem parseSingleQuoted_unclosed (c : Text) (h : (parseSingleQuoted c).closed = false) :
    (parseSingleQuoted c).next.rest = [] := by
  unfold parseSingleQuoted at h ⊢
  simp only at h ⊢
  split at h <;> simp_all

theorem parseSingleQuoted_closesAt (hv : '\'' ∉ v)
    (h : Closes c ['\''] c' v) : (parseSingleQuoted c).ClosesAt c' := by
  obtain ⟨p, r⟩ := c
  obtain ⟨p', r'⟩ := c'
  obtain ⟨hr, hp⟩ := h
  simp only [List.length_singleton] at hr hp
  subst hr hp
  have htake : List.takeWhile (fun b => b != '\'') (v ++ '\'' :: r') = v := by
    rw [List.takeWhile_append_of_pos]
    · simp
    · intro b hb
      simp only [bne_iff_ne, ne_eq]
      rintro rfl
      exact hv hb
  simp [parseSingleQuoted, Body.ClosesAt, Cursor.skip, htake, Nat.add_assoc]

theorem backtickLoop_unclosed (inner : List Char) (pos : Nat) (r : List Char)
    (h : (backtickLoop inner pos r).closed = false) : (backtickLoop inner pos r).next.rest = [] := by
  fun_induction backtickLoop inner pos r <;> simp_all

/-- A byte that is no backtick and no backslash is copied. -/
theorem backtickLoop_plain {b : Char} (hq : b ≠ '`') (he : b ≠ '\\') (inner : List Char) (pos : Nat)
    (r : List Char) :
    backtickLoop inner pos (b :: r) = backtickLoop (inner ++ [b]) (pos + 1) r := by
  rw [backtickLoop] <;> simp_all

/-- An escape is two bytes to the word parser too, though it keeps some backslashes. -/
theorem backtickLoop_escape (inner : List Char) (pos : Nat) (b : Char) (r : List Char) :
    ∃ inner', backtickLoop inner pos ('\\' :: b :: r) = backtickLoop inner' (pos + 2) r := by
  by_cases hq : b = '`'
  · subst hq
    exact ⟨_, rfl⟩
  by_cases hd : b = '$'
  · subst hd
    exact ⟨_, rfl⟩
  by_cases he : b = '\\'
  · subst he
    exact ⟨_, rfl⟩
  refine ⟨inner ++ ['\\'] ++ [b], ?_⟩
  have hstep : backtickLoop inner pos ('\\' :: b :: r) =
      backtickLoop (inner ++ ['\\']) (pos + 1) (b :: r) := by
    rw [backtickLoop] <;> simp_all
  rw [hstep, backtickLoop_plain hq he]

theorem backtickLoop_closesAt (x : List Char) (v : List Char) (hv : backtickBody v = true) :
    ∀ (inner : List Char) (pos : Nat),
      (backtickLoop inner pos (v ++ '`' :: x)).ClosesAt ⟨pos + v.length + 1, x⟩ := by
  fun_induction backtickBody v with
  | case1 =>
    intro inner pos
    exact ⟨rfl, rfl⟩
  | case2 => simp at hv
  | case3 b v ih =>
    intro inner pos
    obtain ⟨inner', hstep⟩ := backtickLoop_escape inner pos b (v ++ '`' :: x)
    have hpos : pos + ('\\' :: b :: v).length + 1 = pos + 2 + v.length + 1 := by
      simp
      omega
    rw [List.cons_append, List.cons_append, hstep, hpos]
    exact ih hv inner' (pos + 2)
  | case4 => simp at hv
  | case5 b v hq hesc hend ih =>
    intro inner pos
    have he : b ≠ '\\' := by
      rintro rfl
      cases v with
      | nil => exact hend rfl rfl
      | cons a v => exact hesc a v rfl rfl
    have hpos : pos + (b :: v).length + 1 = pos + 1 + v.length + 1 := by
      simp
      omega
    rw [List.cons_append, backtickLoop_plain hq he, hpos]
    exact ih hv _ (pos + 1)

theorem parseBacktick_closesAt (hv : backtickBody v = true)
    (h : Closes c ['`'] c' v) : (parseBacktick c).ClosesAt c' := by
  obtain ⟨p, r⟩ := c
  obtain ⟨p', x⟩ := c'
  obtain ⟨hr, hp⟩ := h
  simp only [List.append_assoc, List.singleton_append, List.length_singleton] at hr hp
  subst hr hp
  exact backtickLoop_closesAt x v hv [] p

/-- Digits of an escape stay inside the quoted body and are no backslashes. -/
theorem parseHexDigits_inside (n val p : Nat) (w x : List Char) :
    ∃ u w', w = u ++ w' ∧ '\\' ∉ u ∧
      (parseHexDigits n val ⟨p, w ++ '\'' :: x⟩).2 = ⟨p + u.length, w' ++ '\'' :: x⟩ := by
  induction n generalizing val p w with
  | zero => exact ⟨[], w, by simp [parseHexDigits]⟩
  | succ n ih =>
    cases w with
    | nil => exact ⟨[], [], by simp [parseHexDigits, hexDigit]⟩
    | cons b w =>
      cases hb : hexDigit b with
      | none => exact ⟨[], b :: w, by simp [parseHexDigits, hb]⟩
      | some d =>
        obtain ⟨u, w', rfl, hu, hnext⟩ := ih ((val * 16 + d) % 256) (p + 1) w
        have hne : b ≠ '\\' := by
          rintro rfl
          simp [hexDigit] at hb
        refine ⟨b :: u, w', by simp, by simp [hu, hne.symm], ?_⟩
        simp only [parseHexDigits, List.cons_append, List.head?_cons, Option.bind_some, hb,
          Cursor.skip, List.drop_succ_cons, List.drop_zero]
        rw [hnext]
        simp
        omega

theorem parseOctalDigits_inside (n val p : Nat) (w x : List Char) :
    ∃ u w', w = u ++ w' ∧ '\\' ∉ u ∧
      (parseOctalDigits n val ⟨p, w ++ '\'' :: x⟩).2 = ⟨p + u.length, w' ++ '\'' :: x⟩ := by
  induction n generalizing val p w with
  | zero => exact ⟨[], w, by simp [parseOctalDigits]⟩
  | succ n ih =>
    cases w with
    | nil => exact ⟨[], [], by simp [parseOctalDigits]⟩
    | cons b w =>
      by_cases hb : '0' ≤ b ∧ b ≤ '7'
      · obtain ⟨u, w', rfl, hu, hnext⟩ :=
          ih ((val * 8 + (b.toNat - '0'.toNat)) % 256) (p + 1) w
        have hne : b ≠ '\\' := by
          rintro rfl
          revert hb
          decide
        refine ⟨b :: u, w', by simp, by simp [hu, hne.symm], ?_⟩
        simp only [parseOctalDigits, List.cons_append, if_pos hb, Cursor.skip,
          List.drop_succ_cons, List.drop_zero]
        rw [hnext]
        simp
        omega
      · exact ⟨[], b :: w, by simp [parseOctalDigits, hb]⟩

theorem escapesClosed_append {u : List Char} (hu : '\\' ∉ u) (w : List Char) :
    escapesClosed (u ++ w) = escapesClosed w := by
  induction u with
  | nil => rfl
  | cons b u ih =>
    simp only [List.mem_cons, not_or] at hu
    rw [List.cons_append, escapesClosed, ih hu.2]
    · rintro a v rfl
      exact absurd rfl hu.1
    · rintro rfl
      exact absurd rfl hu.1

/-- An escape inside the body takes its first byte and perhaps digits after it. -/
theorem ansiCEscape_inside (p : Nat) (b : Char) (w x : List Char) :
    ∃ u w', w = u ++ w' ∧ '\\' ∉ u ∧
      (ansiCEscape ⟨p, b :: (w ++ '\'' :: x)⟩).2 = ⟨p + 1 + u.length, w' ++ '\'' :: x⟩ := by
  have hplain : ∃ u w', w = u ++ w' ∧ '\\' ∉ u ∧
      Cursor.skip ⟨p, b :: (w ++ '\'' :: x)⟩ 1 = ⟨p + 1 + u.length, w' ++ '\'' :: x⟩ :=
    ⟨[], w, by simp [Cursor.skip]⟩
  unfold ansiCEscape
  split
  case h_13 heq =>
    obtain ⟨rfl, -⟩ : b = 'x' ∧ _ := by simpa using heq
    exact parseHexDigits_inside 2 0 (p + 1) w x
  case h_14 heq =>
    obtain ⟨rfl, rfl⟩ := List.cons.inj heq
    split
    · rename_i hb
      obtain ⟨u, w', hw, hu, hnext⟩ := parseOctalDigits_inside 2
        ((0 * 8 + (b.toNat - '0'.toNat)) % 256) (p + 1) w x
      refine ⟨u, w', hw, hu, ?_⟩
      simpa only [parseOctalDigits, if_pos hb, Cursor.skip, List.drop_succ_cons,
        List.drop_zero] using hnext
    · exact hplain
  case h_15 heq => simp at heq
  all_goals exact hplain

theorem ansiCLoop_closed_pos (n : Nat) (result : List Char) (c : Text)
    (h : (ansiCLoop result n c).closed = true) : c.pos < (ansiCLoop result n c).next.pos := by
  induction n generalizing result c with
  | zero => simp [ansiCLoop] at h
  | succ n ih =>
    unfold ansiCLoop at h ⊢
    split at h
    · simp at h
    · simp
    · have hle := (ansiCEscape_reaches (c.skip 1)).pos_le
      rcases hesc : ansiCEscape (c.skip 1) with ⟨bytes, c₁⟩
      simp only [hesc, Cursor.skip_pos] at h hle ⊢
      have hlt := ih _ _ h
      omega
    · have hlt := ih _ _ h
      simp only [Cursor.skip_pos] at hlt
      omega

theorem ansiCLoop_unclosed (n : Nat) (result : List Char) (c : Text) (hn : c.rest.length ≤ n)
    (h : (ansiCLoop result n c).closed = false) : (ansiCLoop result n c).next.rest = [] := by
  induction n generalizing result c with
  | zero => exact List.length_eq_zero_iff.mp (by simpa [ansiCLoop] using hn)
  | succ n ih =>
    unfold ansiCLoop at h ⊢
    split at h
    · assumption
    · simp at h
    · rename_i r hr
      have hle := (ansiCEscape_reaches (c.skip 1)).length_le
      rcases hesc : ansiCEscape (c.skip 1) with ⟨bytes, c₁⟩
      simp only [hesc, Cursor.skip_rest, List.length_drop] at h hle ⊢
      exact ih _ _ (by omega) h
    · rename_i r hr
      exact ih _ _ (by simp; omega) h

/-- Escapes decide whether `$'...'` ends at its first quote. -/
theorem ansiCLoop_closesAt (n : Nat) :
    ∀ (result : List Char) (p : Nat) (v x : List Char), v.length + 1 ≤ n → '\'' ∉ v →
      ((ansiCLoop result n ⟨p, v ++ '\'' :: x⟩).ClosesAt ⟨p + v.length + 1, x⟩ ↔
        escapesClosed v = true) := by
  induction n with
  | zero =>
    intro result p v x hn
    omega
  | succ n ih =>
    intro result p v x hn hv
    cases v with
    | nil => simp [ansiCLoop, escapesClosed, Body.ClosesAt, Cursor.skip]
    | cons b v =>
      simp only [List.mem_cons, not_or, List.length_cons] at hv hn
      by_cases hb : b = '\\'
      · subst hb
        cases v with
        | nil =>
          -- the escape takes the quote; the loop goes on behind it
          simp only [escapesClosed, Bool.false_eq_true, iff_false]
          rintro ⟨hclosed, hnext⟩
          have hlt := ansiCLoop_closed_pos n _ _ hclosed
          have hpos := congrArg Cursor.pos hnext
          simp [ansiCLoop, ansiCEscape, Cursor.skip] at hlt hpos
          omega
        | cons a v =>
          simp only [List.mem_cons, not_or, List.length_cons] at hv hn
          obtain ⟨u, w, rfl, hu, hnext⟩ := ansiCEscape_inside (p + 1) a v x
          have hloop : ansiCLoop result (n + 1) ⟨p, '\\' :: a :: (u ++ w) ++ '\'' :: x⟩ =
              ansiCLoop (result ++ (ansiCEscape ⟨p + 1, a :: (u ++ w ++ '\'' :: x)⟩).1) n
                ⟨p + 1 + 1 + u.length, w ++ '\'' :: x⟩ := by
            rw [← hnext]
            rfl
          have hpos : p + ('\\' :: a :: (u ++ w)).length + 1 =
              p + 1 + 1 + u.length + w.length + 1 := by
            simp
            omega
          have hw : '\'' ∉ w := fun hmem => hv.2.2 (List.mem_append_right u hmem)
          rw [hloop, hpos, ih _ _ w x (by simp at hn; omega) hw]
          rw [escapesClosed, escapesClosed_append hu]
      · have hloop : ansiCLoop result (n + 1) ⟨p, b :: v ++ '\'' :: x⟩ =
            ansiCLoop (result ++ [b]) n ⟨p + 1, v ++ '\'' :: x⟩ := by
          have hq : b ≠ '\'' := fun he => hv.1 he.symm
          simp [ansiCLoop, Cursor.skip]
        have hesc : escapesClosed (b :: v) = escapesClosed v :=
          escapesClosed_append (u := [b]) (by simpa using Ne.symm hb) v
        have hpos : p + (b :: v).length + 1 = p + 1 + v.length + 1 := by
          simp
          omega
        rw [hloop, hesc, hpos]
        exact ih _ _ v x (by omega) hv.2

theorem parseAnsiCQuoted_closesAt (hv : '\'' ∉ v) (h : Closes c ['\''] c' v) :
    (parseAnsiCQuoted c).ClosesAt c' ↔ escapesClosed v = true := by
  obtain ⟨p, r⟩ := c
  obtain ⟨p', x⟩ := c'
  obtain ⟨hr, hp⟩ := h
  simp only [List.append_assoc, List.singleton_append, List.length_singleton] at hr hp
  subst hr hp
  exact ansiCLoop_closesAt _ [] p v x (by simp) hv

end Wasmsh.WordParser

import Wasmsh.LexerBounds
import Wasmsh.RegionBodies

/-!
# Comparing the logs of lexer and word parser

The lexer finds the end of a word by tracking the nesting of quotes and
substitutions; `parse_word_parts` then splits the token's text with scanners of its
own.  Both log where regions open and close, and they agree on a word when the two
logs are equal.

They do not always agree.  `wordAgrees` says, of the source at the token, when they
do: every region's body, as delimited by the nesting of the source, has to be closed
by the word parser's weaker scanner at the same place (`Wasmsh.RegionBodies`), no
`$'` may stand inside double quotes, and an extended pattern may hold nothing the
word parser takes for a region.

The logs are compared from the left.  As long as the condition holds both scanners
stand at the same cursor with the same log; at the first region for which it fails,
the next entries of the two logs differ, and nothing later can repair that.  `Tracks`
is this statement for one stretch of the text.  The stretches of this module are a
`$` and the inside of double quotes.
-/

namespace Wasmsh.Extents

open Scanning Wasmsh.Lex Wasmsh.WordParser

variable {c c' : Text} {ms : List Mark} {t : List Char} {cont : Text → List Mark} {c : Text}
variable {log : List Mark}

/-! ## 1. The condition -/

/-- The text from `c` up to the closing delimiter of `n` bytes that ends at `c'`. -/
def bodyBetween (c c' : Text) (n : Nat) : List Char := c.rest.take (c'.pos - n - c.pos)

/-- The `$` at `c`, read up to `c'`, is understood alike by both scanners. -/
def dollarAgrees (inQuotes : Bool) (c c' : Text) : Bool :=
  match c.rest with
  | '$' :: '\'' :: _ => !inQuotes && escapesClosed (bodyBetween (c.skip 2) c' 1)
  | '$' :: '(' :: '(' :: _ => arithBalanced (bodyBetween (c.skip 3) c' 2)
  | '$' :: '(' :: _ => commandBalanced (bodyBetween (c.skip 2) c' 1)
  | '$' :: '{' :: _ => braceBalanced (bodyBetween (c.skip 2) c' 1)
  | _ => true

section DollarAgreesEquations

variable {q : Bool} {c c' : Text} {r : List Char}

theorem dollarAgrees_quote (hc : c.rest = '$' :: '\'' :: r) :
    dollarAgrees q c c' = (!q && escapesClosed (bodyBetween (c.skip 2) c' 1)) := by
  simp only [dollarAgrees, hc]

theorem dollarAgrees_arith (hc : c.rest = '$' :: '(' :: '(' :: r) :
    dollarAgrees q c c' = arithBalanced (bodyBetween (c.skip 3) c' 2) := by
  simp only [dollarAgrees, hc]

theorem dollarAgrees_command (hc : c.rest = '$' :: '(' :: r) (hr : r.head? ≠ some '(') :
    dollarAgrees q c c' = commandBalanced (bodyBetween (c.skip 2) c' 1) := by
  cases r with
  | nil => simp only [dollarAgrees, hc]
  | cons b r =>
    have hb : b ≠ '(' := by simpa using hr
    simp [dollarAgrees, hc, hb]

theorem dollarAgrees_brace (hc : c.rest = '$' :: '{' :: r) :
    dollarAgrees q c c' = braceBalanced (bodyBetween (c.skip 2) c' 1) := by
  simp only [dollarAgrees, hc]

theorem dollarAgrees_other (hc : c.rest = '$' :: r)
    (hr : ∀ b ∈ r.head?, b ≠ '\'' ∧ b ≠ '(' ∧ b ≠ '{') : dollarAgrees q c c' = true := by
  cases r with
  | nil => simp only [dollarAgrees, hc]
  | cons b r =>
    obtain ⟨h₁, h₂, h₃⟩ := hr b (by simp)
    simp [dollarAgrees, hc, h₁, h₂, h₃]

end DollarAgreesEquations

/-- A byte that begins a name or is a special parameter begins no region. -/
theorem opensNothing_of_param {b : Char} (h : isNameStart b = true ∨ isSpecialParam b = true) :
    b ≠ '\'' ∧ b ≠ '(' ∧ b ≠ '{' := by
  refine ⟨?_, ?_, ?_⟩ <;>
    · rintro rfl
      revert h
      decide

/-- The regions inside double quotes, up to the closing quote. -/
def quotedAgrees (dollar : Text → MarkedScan) : Nat → Text → Bool
  | 0, _ => true
  | n + 1, c =>
    match c.rest with
    | '\\' :: _ => quotedAgrees dollar n (consumeBackslash c)
    | '$' :: _ =>
      match dollar c with
      | .ok (_, c') => dollarAgrees true c c' && quotedAgrees dollar n c'
      | .error _ => true
    | '`' :: _ =>
      match consumeBacktick c with
      | .ok c' => quotedAgrees dollar n c'
      | .error _ => true
    | '"' :: _ => true
    | [] => true
    | _ => quotedAgrees dollar n (c.skip 1)

/-- Nothing in the text opens a region when it is read as part of a word. -/
def opensNoRegion : List Char → Bool
  | [] => true
  | '\\' :: _ :: v => opensNoRegion v
  | '\'' :: _ => false
  | '"' :: _ => false
  | '`' :: _ => false
  | '<' :: '(' :: _ => false
  | '>' :: '(' :: _ => false
  | '$' :: b :: v =>
    if ['\'', '"', '(', '{'].contains b then false
    else if isSpecialParam b then opensNoRegion v
    else opensNoRegion (b :: v)
  | _ :: v => opensNoRegion v

/-- The word part at `c`, read up to `c'`, is understood alike by both scanners. -/
def partAgrees (depth : Nat) (c c' : Text) : Bool :=
  match c.rest with
  | '"' :: _ => quotedAgrees (dollarAt depth) (c.rest.length + 1) (c.skip 1)
  | '$' :: '"' :: '(' :: _ => true
  | '$' :: '"' :: _ => quotedAgrees (dollarAt depth) ((c.skip 1).rest.length + 1) (c.skip 2)
  | '$' :: _ => dollarAgrees false c c'
  | b :: '(' :: _ => !isExtglobOperator b || opensNoRegion (bodyBetween (c.skip 2) c' 1)
  | _ => true

/-- The parts of a word up to the next word break. -/
def wordAgrees (depth : Nat) : Nat → Text → Bool
  | 0, _ => true
  | n + 1, c =>
    match c.rest with
    | [] => true
    | b :: _ =>
      if isWordBreak b then true
      else
        match readWordPart depth c with
        | .ok (_, c') => partAgrees depth c c' && wordAgrees depth n c'
        | .error _ => true

/-! ## 2. Comparing logs -/

theorem bodyBetween_eq {closing v : List Char} {n : Nat}
    (h : Closes c closing c' v) (hn : closing.length = n) : bodyBetween c c' n = v := by
  have hlen : c'.pos - n - c.pos = v.length := by
    have := h.pos
    omega
  rw [bodyBetween, hlen, h.rest, List.append_assoc, List.take_left]

/-- One stretch of the lexer's log, `ms` up to `c'`, against the word parser's log, which
    continues with `cont`: under the condition the stretch is the same in both, and
    otherwise the logs differ, whatever the lexer logs behind the stretch. -/
structure Tracks (cond : Bool) (ms : List Mark) (c' : Text) (log : List Mark)
    (cont : Text → List Mark) : Prop where
  agree : cond = true → log = ms ++ cont c'
  differ : cond = false → ∀ more, MarksAfter c'.pos more → ms ++ more ≠ log

namespace Tracks

theorem of_eq {c' : Text} {ms log : List Mark}
    (h : log = ms ++ cont c') : Tracks true ms c' log cont where
  agree _ := h
  differ hfalse := by simp at hfalse

/-- Stretches compose. -/
theorem trans {cond₁ cond₂ : Bool} {ms₁ ms₂ log : List Mark} {c₁ c₂ : Text}
    {cont₁ cont₂ : Text → List Mark} (h₁ : Tracks cond₁ ms₁ c₁ log cont₁)
    (h₂ : Tracks cond₂ ms₂ c₂ (cont₁ c₁) cont₂) (hle : c₁.pos ≤ c₂.pos)
    (hms : MarksAfter c₁.pos ms₂) : Tracks (cond₁ && cond₂) (ms₁ ++ ms₂) c₂ log cont₂ where
  agree h := by
    rw [Bool.and_eq_true] at h
    rw [h₁.agree h.1, h₂.agree h.2, List.append_assoc]
  differ h more hmore := by
    rw [List.append_assoc]
    by_cases hc : cond₁ = true
    · have hc₂ : cond₂ = false := by simpa [hc] using h
      rw [h₁.agree hc]
      intro heq
      exact h₂.differ hc₂ more hmore (List.append_cancel_left heq)
    · exact h₁.differ (by simpa using hc) _ (by simp [hms, hmore.mono hle])

/-- A region: the word parser has to close it where the lexer did. -/
theorem region {β : Type} {k : Region} {b : Body β} {cond : Bool}
    (hlog : log = b.marks k c [] ++ cont b.next)
    (hc : c.Reaches c') (hb : c.Reaches b.next) (hiff : b.ClosesAt c' ↔ cond = true)
    (hopen : b.closed = false → b.next.rest = [])
    (hnil : ∀ x : Text, x.rest = [] → cont x = []) : Tracks cond (k.marks c c') c' log cont where
  agree h := by
    obtain ⟨hcl, rfl⟩ := hiff.mpr h
    simp [hlog, Region.marks, Body.marks, hcl]
  differ h more _ heq := by
    have hnot : ¬ b.ClosesAt c' := by simp [hiff, h]
    rw [hlog] at heq
    unfold Region.marks Body.marks at heq
    by_cases hcl : b.closed = true
    · simp only [hcl, if_true, List.cons_append, List.nil_append, List.cons.injEq,
        Mark.closed.injEq, true_and] at heq
      exact hnot ⟨hcl, hb.eq_of_pos_eq hc heq.1.symm⟩
    · simp only [Bool.not_eq_true] at hcl
      simp [hcl, hnil _ (hopen hcl)] at heq

end Tracks

/-- The word parser's log from inside double quotes on, where `after` is what it logs
    behind them.  Unclosed quotes take the rest of the word, and nothing follows. -/
def quotedLog (c : Text) (after : Text → List Mark) : List Mark :=
  (quoted c).1 ++
    if (quoted c).2.2 then .closed .doubleQuoted (quoted c).2.1.pos :: after (quoted c).2.1 else []

theorem quotedLog_nil (h : c.rest = []) (after : Text → List Mark) :
    quotedLog c after = [] := by
  simp [quotedLog, quoted_nil h]

theorem quotedLog_quote {r : List Char} (h : c.rest = '"' :: r) (after : Text → List Mark) :
    quotedLog c after = .closed .doubleQuoted (c.pos + 1) :: after (c.skip 1) := by
  simp [quotedLog, quoted_quote h]

theorem quotedLog_congr (h : quoted c = quoted c') (after : Text → List Mark) :
    quotedLog c after = quotedLog c' after := by
  simp [quotedLog, h]

theorem quotedLog_append
    (h : quoted c = (ms ++ (quoted c').1, (quoted c').2)) (after : Text → List Mark) :
    quotedLog c after = ms ++ quotedLog c' after := by
  simp [quotedLog, h]

/-- Behind a cursor, the word parser opens no region at the cursor itself. -/
theorem quotedLog_head {after : Text → List Mark} {k : Region} :
    quotedLog c after ≠ .opened k c.pos :: ms := by
  intro h
  unfold quotedLog at h
  have hafter := quoted_marks_after c
  cases hm : (quoted c).1 with
  | nil =>
    rw [hm] at h
    split at h <;> simp at h
  | cons m l =>
    rw [hm, List.cons_append] at h
    obtain ⟨rfl, -⟩ := List.cons.inj h
    rw [hm] at hafter
    simp [Mark.offset] at hafter

/-! ## 3. Cutting the source down to the token

The lexer reads the source, the word parser only the token.  What the lexer did before
the end of the token depends on the token alone. -/

/-- Cancel the text behind the token. -/
theorem rest_of_extend {t u : List Char}
    (h : c.rest ++ t = u ++ (c'.rest ++ t)) : c.rest = u ++ c'.rest := by
  rw [← List.append_assoc] at h
  exact List.append_cancel_right h

theorem closes_restrict {t r u closing v : List Char} (hc : (c.extend t).rest = u ++ r)
    (hcl : Closes ((c.extend t).skip u.length) closing (c'.extend t) v) :
    c.rest = u ++ (v ++ closing ++ c'.rest) ∧ Closes (c.skip u.length) closing c' v ∧
      bodyBetween ((c.extend t).skip u.length) (c'.extend t) closing.length =
        bodyBetween (c.skip u.length) c' closing.length := by
  have hr : r = v ++ closing ++ (c'.rest ++ t) := by
    have := hcl.rest
    rw [Cursor.skip_rest, hc, List.drop_left] at this
    exact this
  have hrest : c.rest = u ++ (v ++ closing) ++ c'.rest := by
    refine rest_of_extend (t := t) ?_
    rw [Cursor.extend_rest, hr] at hc
    simpa using hc
  rw [List.append_assoc] at hrest
  have hcl' : Closes (c.skip u.length) closing c' v :=
    ⟨by rw [Cursor.skip_rest, hrest, List.drop_left], hcl.pos⟩
  exact ⟨hrest, hcl', by rw [bodyBetween_eq hcl rfl, bodyBetween_eq hcl' rfl]⟩

theorem takeWhile_restrict {p : Char → Bool} {r x t : List Char}
    (h : r = r.takeWhile p ++ (x ++ t)) :
    (r.takeWhile p ++ x).takeWhile p = r.takeWhile p := by
  induction r with
  | nil =>
    obtain rfl : x = [] := by
      simp at h
      exact h.1
    rfl
  | cons a l ih =>
    by_cases ha : p a = true
    · simp only [List.takeWhile_cons, ha, if_true, List.cons_append, List.cons.injEq,
        true_and] at h ⊢
      exact ih h
    · simp only [List.takeWhile_cons, ha, if_false, List.nil_append, Bool.false_eq_true] at h ⊢
      cases x with
      | nil => rfl
      | cons b x =>
        obtain ⟨rfl, -⟩ := List.cons.inj h
        simp [ha]

/-- What reading a `$` did before the end of the token is the same without what
    follows the token. -/
theorem dollarRead_restrict (h : DollarRead (c.extend t) ms (c'.extend t)) :
    DollarRead c ms c' ∧
      ∀ q, dollarAgrees q (c.extend t) (c'.extend t) = dollarAgrees q c c' := by
  generalize hx : c'.extend t = x at h
  cases h with
  | @quote r v _ hc hv hcl =>
    subst hx
    obtain ⟨hr, hcl', hbody⟩ := closes_restrict (u := ['$', '\'']) hc hcl
    refine ⟨.quote hr hv hcl', fun q => ?_⟩
    rw [dollarAgrees_quote hc, dollarAgrees_quote hr]
    exact congrArg (fun b => !q && escapesClosed b) hbody
  | @arith r v _ hc hcl =>
    subst hx
    obtain ⟨hr, hcl', hbody⟩ := closes_restrict (u := ['$', '(', '(']) hc hcl
    refine ⟨.arith hr hcl', fun q => ?_⟩
    rw [dollarAgrees_arith hc, dollarAgrees_arith hr]
    exact congrArg arithBalanced hbody
  | @command r v _ hc hhead hcl =>
    subst hx
    obtain ⟨hr, hcl', hbody⟩ := closes_restrict (u := ['$', '(']) hc hcl
    have hhead' : (v ++ [')'] ++ c'.rest).head? ≠ some '(' := by
      rw [Cursor.extend_rest, hr] at hc
      obtain rfl : v ++ [')'] ++ c'.rest ++ t = r := by simpa using hc
      cases v <;> simp_all
    refine ⟨.command hr hhead' hcl', fun q => ?_⟩
    rw [dollarAgrees_command hc hhead, dollarAgrees_command hr hhead']
    exact congrArg commandBalanced hbody
  | @brace r v _ hc hcl =>
    subst hx
    obtain ⟨hr, hcl', hbody⟩ := closes_restrict (u := ['$', '{']) hc hcl
    refine ⟨.brace hr hcl', fun q => ?_⟩
    rw [dollarAgrees_brace hc, dollarAgrees_brace hr]
    exact congrArg braceBalanced hbody
  | @name b r hc hb =>
    have hother := opensNothing_of_param (.inl hb)
    simp only [Cursor.extend_rest] at hc
    simp only [consumeIdentifier, Cursor.skip, Cursor.extend, hc, List.drop_succ_cons,
      List.drop_zero, Cursor.mk.injEq] at hx
    have hsplit : (b :: r) = (b :: r).takeWhile isNameByte ++ (c'.rest ++ t) := by
      rw [hx.2]
      exact (List.prefix_iff_eq_append.mp (List.takeWhile_prefix _)).symm
    have hname : isNameByte b = true := isNameByte_of_isNameStart hb
    have hrest : c.rest = '$' :: ((b :: r).takeWhile isNameByte ++ c'.rest) := by
      refine rest_of_extend (t := t) (u := '$' :: (b :: r).takeWhile isNameByte) ?_
      rw [hc, List.cons_append, ← hsplit]
    have hstart : (b :: r).takeWhile isNameByte ++ c'.rest =
        b :: (r.takeWhile isNameByte ++ c'.rest) := by
      simp [hname]
    have heq : consumeIdentifier (c.skip 1) = c' := by
      have hrestrict := takeWhile_restrict hsplit
      obtain ⟨p', x'⟩ := c'
      simp only [consumeIdentifier, Cursor.skip, hrest, List.drop_succ_cons, List.drop_zero,
        hrestrict, List.drop_left, Cursor.mk.injEq, and_true]
      exact hx.1.symm
    rw [hstart] at hrest
    refine ⟨heq ▸ .name hrest hb, fun q => ?_⟩
    rw [dollarAgrees_other hrest (by simpa using hother),
      dollarAgrees_other (c := c.extend t) hc (by simpa using hother)]
  | @special b r hc hb hs =>
    have hother := opensNothing_of_param (.inr hs)
    simp only [Cursor.extend_rest] at hc
    simp only [Cursor.skip, Cursor.extend, hc, List.drop_succ_cons, List.drop_zero,
      Cursor.mk.injEq] at hx
    have hrest : c.rest = '$' :: b :: c'.rest := by
      refine rest_of_extend (t := t) (u := ['$', b]) ?_
      rw [hc, hx.2]
      rfl
    have heq : c.skip 2 = c' := by
      obtain ⟨p', x'⟩ := c'
      simp only [Cursor.skip, hrest, List.drop_succ_cons, List.drop_zero, Cursor.mk.injEq,
        and_true]
      exact hx.1.symm
    refine ⟨heq ▸ .special hrest hb hs, fun q => ?_⟩
    rw [dollarAgrees_other hrest (by simpa using hother),
      dollarAgrees_other (c := c.extend t) hc (by simpa using hother)]
  | @lone r hc hr =>
    simp only [Cursor.extend_rest] at hc
    simp only [Cursor.skip, Cursor.extend, hc, List.drop_succ_cons, List.drop_zero,
      Cursor.mk.injEq] at hx
    have hrest : c.rest = '$' :: c'.rest := by
      refine rest_of_extend (t := t) (u := ['$']) ?_
      rw [hc, hx.2]
      rfl
    have heq : c.skip 1 = c' := by
      obtain ⟨p', x'⟩ := c'
      simp only [Cursor.skip, hrest, List.drop_succ_cons, List.drop_zero, Cursor.mk.injEq,
        and_true]
      exact hx.1.symm
    have hhead : ∀ b ∈ c'.rest.head?, b ∈ r.head? := by
      intro b hb
      rw [← hx.2]
      cases hc' : c'.rest with
      | nil => simp [hc'] at hb
      | cons a l => simpa [hc'] using hb
    refine ⟨heq ▸ .lone hrest (fun b hb => hr b (hhead b hb)), fun q => ?_⟩
    rw [dollarAgrees_other hrest (fun b hb => ?_),
      dollarAgrees_other (c := c.extend t) hc (fun b hb => ?_)]
    · obtain ⟨h₁, h₂, h₃, -⟩ := hr b hb
      exact ⟨h₁, h₂, h₃⟩
    · obtain ⟨h₁, h₂, h₃, -⟩ := hr b (hhead b hb)
      exact ⟨h₁, h₂, h₃⟩

/-! ## 4. The dollar -/

/-- The word parser at a region that starts with `$`, in the word or in double quotes. -/
theorem dollar_region {lexeme : Lexeme Char} (hlex : lexeme.Consumes) {k : Region}
    {d c' : Text} {p : Part} {closing : List Char} {b : Char} {v : List Char} {cond : Bool}
    (hm : p.marks = (parseBody lexeme d).marks k d []) (hn : p.next = (parseBody lexeme d).next)
    (hlog : log = p.marks ++ cont p.next) (hcl : Closes d (b :: closing) c' v)
    (hiff : (parseBody lexeme d).ClosesAt c' ↔ cond = true)
    (hnil : ∀ x : Text, x.rest = [] → cont x = []) : Tracks cond (k.marks d c') c' log cont :=
  Tracks.region (by rw [hlog, hm, hn]) hcl.passes.1 (parseBody_reaches hlex d) hiff
    (parseBody_unclosed lexeme d) hnil

/-- A `$` that both scanners read with `parse_dollar`, so not before a quote. -/
theorem dollarRead_tracks (h : DollarRead c ms c') {q : Bool}
    (hquote : ∀ r, c.rest = '$' :: '\'' :: r → Tracks (dollarAgrees q c c') ms c' log cont)
    (hsome : ∀ p, parseDollar (c.skip 1) = some p → log = p.marks ++ cont p.next)
    (hnone : parseDollar (c.skip 1) = none → (∀ r, c.rest ≠ '$' :: '\'' :: r) →
      log = cont (c.skip 1))
    (hnil : ∀ x : Text, x.rest = [] → cont x = []) : Tracks (dollarAgrees q c c') ms c' log cont := by
  cases h with
  | quote hc _ _ => exact hquote _ hc
  | @arith r v _ hc hcl =>
    rw [dollarAgrees_arith hc, bodyBetween_eq (n := 2) hcl rfl]
    have hp : parseDollar (c.skip 1) = some (parseDollarArith (c.skip 2)) := by
      simp [parseDollar, parseDollarParen, hc, skip_skip]
    refine dollar_region arithLexeme_consumes (p := parseDollarArith (c.skip 2)) ?_ ?_
      (hsome _ hp) hcl (parseArith_closesAt hcl) hnil
    · simp [parseDollarArith, skip_skip]
    · simp [parseDollarArith, skip_skip]
  | @command r v _ hc hhead hcl =>
    rw [dollarAgrees_command hc hhead, bodyBetween_eq (n := 1) hcl rfl]
    have hp : parseDollar (c.skip 1) = some (parseDollarCmdSubst (c.skip 2)) := by
      simp [parseDollar, parseDollarParen, hc, skip_skip, hhead]
    exact dollar_region cmdSubstLexeme_consumes (p := parseDollarCmdSubst (c.skip 2)) rfl rfl
      (hsome _ hp) hcl (parseCommand_closesAt hcl) hnil
  | @brace r v _ hc hcl =>
    rw [dollarAgrees_brace hc, bodyBetween_eq (n := 1) hcl rfl]
    have hp : parseDollar (c.skip 1) = some (parseDollarBrace (c.skip 1)) := by
      simp [parseDollar, hc]
    refine dollar_region braceLexeme_consumes (p := parseDollarBrace (c.skip 1)) ?_ ?_
      (hsome _ hp) hcl (parseBrace_closesAt hcl) hnil
    · simp [parseDollarBrace, skip_skip]
    · simp [parseDollarBrace, skip_skip]
  | @name b r hc hb =>
    have hother := opensNothing_of_param (.inl hb)
    rw [dollarAgrees_other hc (by simpa using hother)]
    have hp : parseDollar (c.skip 1) = some (parseNamedParameter (c.skip 1)) := by
      simp [parseDollar, hc, hother, hb]
    exact .of_eq (hsome _ hp)
  | @special b r hc hb hs =>
    have hother := opensNothing_of_param (.inr hs)
    rw [dollarAgrees_other hc (by simpa using hother)]
    have hp : parseDollar (c.skip 1) = some (parseSpecialParameter (c.skip 1)) := by
      simp [parseDollar, hc, hother, hb, hs]
    have hlog := hsome _ hp
    simp only [parseSpecialParameter, skip_skip] at hlog
    exact .of_eq hlog
  | @lone r hc hr =>
    rw [dollarAgrees_other hc (fun b hb => ⟨(hr b hb).1, (hr b hb).2.1, (hr b hb).2.2.1⟩)]
    refine .of_eq (hnone ?_ ?_)
    · unfold parseDollar
      cases r with
      | nil => simp [hc]
      | cons b r =>
        obtain ⟨-, h₂, h₃, h₄, h₅⟩ := hr b (by simp)
        simp [hc, h₄, h₅]
    · intro s hs
      obtain ⟨-, rfl⟩ := List.cons.inj (hc.symm.trans hs)
      exact (hr '\'' (by simp)).1 rfl

theorem dollarRead_exists (h : DollarRead c ms c') :
    ∃ r, c.rest = '$' :: r := by
  cases h with
  | quote hc | arith hc | command hc | brace hc | name hc | special hc | lone hc => exact ⟨_, hc⟩

/-- Inside double quotes `$'` opens a quote for the lexer only. -/
theorem dollarRead_tracks_quoted (h : DollarRead c ms c') (after : Text → List Mark) :
    Tracks (dollarAgrees true c c') ms c' (quotedLog c after) (quotedLog · after) := by
  obtain ⟨r, hr⟩ := dollarRead_exists h
  refine dollarRead_tracks h (fun s hs => ?_) (fun p hp => ?_) (fun hp _ => ?_) (fun x hx => ?_)
  · rw [dollarAgrees_quote hs]
    refine ⟨by simp, fun _ more _ heq => ?_⟩
    have hnone : parseDollar (c.skip 1) = none := by
      have hq : isNameStart '\'' = false ∧ isSpecialParam '\'' = false := by decide
      simp [parseDollar, hs, hq]
    have hrest : (c.skip 1).rest = '\'' :: s := by simp [hs]
    -- for the word parser `$` and `'` are two plain bytes
    have hplain : quotedLog c after = quotedLog (c.skip 2) after := by
      rw [quotedLog_congr (quoted_dollar_none hs hnone), quotedLog_congr (quoted_plain hrest
        (by decide) (by decide) (by decide) (by decide)), skip_skip]
    cases h with
    | quote _ _ _ =>
      rw [hplain] at heq
      exact quotedLog_head heq.symm
    | arith hc | command hc | brace hc => simp [hs] at hc
    | name hc hb | special hc _ hb =>
      obtain ⟨rfl, -⟩ : _ = '\'' ∧ _ := by simpa [hs, eq_comm] using hc
      revert hb
      decide
    | lone hc hb =>
      rw [hs] at hc
      obtain rfl := (List.cons.inj hc).2
      exact absurd rfl (hb '\'' (by simp)).1
  · exact quotedLog_append (quoted_dollar_some hr hp) after
  · exact quotedLog_congr (quoted_dollar_none hr hp) after
  · exact quotedLog_nil hx after

/-! ## 5. Double quotes -/

theorem extend_inj (h : c.extend t = c'.extend t) : c = c' := by
  obtain ⟨p, r⟩ := c
  obtain ⟨p', r'⟩ := c'
  simpa [Cursor.extend] using h

theorem extend_skip {n : Nat} (h : n ≤ c.rest.length) :
    (c.extend t).skip n = (c.skip n).extend t := by
  simp [Cursor.skip, Cursor.extend, List.drop_append_of_le_length h]

theorem reaches_of_extend (h : (c.extend t).Reaches (c'.extend t)) : c.Reaches c' := by
  obtain ⟨u, hu, hp⟩ := h
  exact ⟨u, rest_of_extend hu, hp⟩

theorem passes_of_extend
    (h : (c.extend t).Passes (c'.extend t)) : c.Passes c' := ⟨reaches_of_extend h.1, h.2⟩

/-- A cursor from which the end of the token is still ahead is a cursor of the token. -/
theorem exists_of_reaches_extend {m c' : Text} (h : m.Reaches (c'.extend t)) :
    ∃ m' : Text, m = m'.extend t := by
  obtain ⟨u, hu, -⟩ := h
  refine ⟨⟨m.pos, u ++ c'.rest⟩, ?_⟩
  obtain ⟨p, r⟩ := m
  simp only [Cursor.extend_rest] at hu
  simp [Cursor.extend, hu]

/-- A backslash takes the same bytes in both scanners when more of the token follows. -/
theorem consumeBackslash_extend {c c' m : Text} {t r : List Char} (hc : c.rest = '\\' :: r)
    (hm : consumeBackslash (c.extend t) = m.extend t) (hpass : m.Passes c') :
    ∃ b r', c.rest = '\\' :: b :: r' ∧ m = ⟨c.pos + 2, r'⟩ := by
  cases r with
  | cons b r' =>
    refine ⟨b, r', hc, extend_inj (t := t) ?_⟩
    rw [← hm]
    simp [consumeBackslash, hc, Cursor.extend]
  | nil =>
    -- the escape would have taken a byte behind the token
    have hlen := congrArg (fun c : Text => c.rest.length) hm
    have hpass := hpass.length_lt
    cases t with
    | nil => simp [consumeBackslash, hc] at hlen; omega
    | cons b t => simp [consumeBackslash, hc] at hlen; omega

theorem backtick_tracks {t r : List Char} (cont : Text → List Mark)
    (hc : c.rest = '`' :: r) (h : consumeBacktick (c.extend t) = .ok (c'.extend t))
    (hlog : log = (parseBacktick (c.skip 1)).marks .backtick (c.skip 1) [] ++
      cont (parseBacktick (c.skip 1)).next)
    (hnil : ∀ x : Text, x.rest = [] → cont x = []) :
    Tracks true (Region.backtick.marks (c.skip 1) c') c' log cont := by
  obtain ⟨v, hv, hr, hp⟩ := consumeBacktick_ok (b := '`') (r := r ++ t) (by simp [hc]) h
  have hcl : Closes (c.skip 1) ['`'] c' v := by
    refine ⟨?_, by simpa using hp⟩
    have hrest : (c.skip 1).rest = (v ++ ['`']) ++ c'.rest :=
      rest_of_extend (t := t) (by simpa [hc] using hr)
    simpa using hrest
  refine .region hlog hcl.passes.1 (parseBacktick_reaches _) ?_ (backtickLoop_unclosed _ _ _) hnil
  simp [parseBacktick_closesAt hv hcl]

theorem doubleQuotedLoop_plain {dollar : Text → MarkedScan} {start n : Nat}
    {b : Char} {r : List Char} (hc : c.rest = b :: r) (hq : b ≠ '"') (he : b ≠ '\\')
    (hd : b ≠ '$') (ht : b ≠ '`') :
    Lex.doubleQuotedLoop dollar start (n + 1) c = Lex.doubleQuotedLoop dollar start n (c.skip 1) := by
  rw [Lex.doubleQuotedLoop]
  split <;> grind

theorem quotedAgrees_plain {dollar : Text → MarkedScan} {n : Nat}
    {b : Char} {r : List Char} (hc : c.rest = b :: r) (hq : b ≠ '"') (he : b ≠ '\\')
    (hd : b ≠ '$') (ht : b ≠ '`') :
    quotedAgrees dollar (n + 1) c = quotedAgrees dollar n (c.skip 1) := by
  rw [quotedAgrees]
  split <;> grind

/-- **Inside double quotes**: the two logs agree up to and with the closing quote exactly
    when every `$` in between is understood alike. -/
theorem doubleQuotedLoop_tracks {dollar : Text → MarkedScan} (hd : ReadsDollar dollar)
    (start n : Nat) :
    ∀ (c c' : Text) (t : List Char) (ms : List Mark) (after : Text → List Mark),
      doubleQuotedLoop dollar start n (c.extend t) = .ok (ms, c'.extend t) →
        Tracks (quotedAgrees dollar n (c.extend t)) (ms ++ [.closed .doubleQuoted c'.pos]) c'
          (quotedLog c after) after := by
  induction n with
  | zero =>
    intro c c' t ms after h
    simp [Lex.doubleQuotedLoop] at h
  | succ n ih =>
    intro c c' t ms after h
    have hpass := passes_of_extend (doubleQuotedLoop_passes hd h).1
    obtain ⟨b, r, hc⟩ : ∃ b r, c.rest = b :: r := by
      have := hpass.length_lt
      exact List.exists_cons_of_length_pos (by omega)
    have hce : (c.extend t).rest = b :: (r ++ t) := by simp [hc]
    -- the rest of the loop from a later cursor of the token
    have hrec : ∀ (m : Text) (ms' : List Mark),
        doubleQuotedLoop dollar start n m = .ok (ms', c'.extend t) →
        ∃ m' : Text, m = m'.extend t ∧ m'.Passes c' ∧
          MarksAfter m'.pos (ms' ++ [.closed .doubleQuoted c'.pos]) ∧
          Tracks (quotedAgrees dollar n m) (ms' ++ [.closed .doubleQuoted c'.pos]) c'
            (quotedLog m' after) after := by
      intro m ms' hm
      obtain ⟨hp, hms⟩ := doubleQuotedLoop_passes hd hm
      obtain ⟨m', rfl⟩ := exists_of_reaches_extend hp.1
      refine ⟨m', rfl, passes_of_extend hp, ?_, ih m' c' t ms' after hm⟩
      simpa [Mark.offset] using ⟨hms, hp.2⟩
    by_cases hq : b = '"'
    · subst hq
      simp only [Lex.doubleQuotedLoop, quotedAgrees, hce] at h ⊢
      obtain ⟨rfl, hnext⟩ : [] = ms ∧ (c.extend t).skip 1 = c'.extend t := by simpa using h
      rw [extend_skip (by simp [hc])] at hnext
      obtain rfl := extend_inj hnext
      exact .of_eq (quotedLog_quote hc after)
    by_cases he : b = '\\'
    · subst he
      simp only [Lex.doubleQuotedLoop, quotedAgrees, hce] at h ⊢
      obtain ⟨m, hm, hmp, -, htr⟩ := hrec _ _ h
      obtain ⟨a, r', hc', rfl⟩ := consumeBackslash_extend hc hm hmp
      have hnext : (dqBackslash [] c).2 = ⟨c.pos + 2, r'⟩ := by
        by_cases hnl : a = '\n'
        · subst hnl
          simp only [dqBackslash, hc']
        · simp only [dqBackslash, hc']
          split <;> rfl
      rw [quotedLog_congr (quoted_backslash hc), hnext]
      exact htr
    by_cases hdol : b = '$'
    · subst hdol
      simp only [Lex.doubleQuotedLoop, quotedAgrees, hce] at h ⊢
      obtain ⟨⟨ms₁, m⟩, h₁, h⟩ := bind_eq_ok.mp h
      obtain ⟨⟨ms₂, m₂⟩, h₂, h⟩ := bind_eq_ok.mp h
      obtain ⟨rfl, rfl⟩ : ms₁ ++ ms₂ = ms ∧ m₂ = c'.extend t := by simpa using h
      obtain ⟨m, rfl, hmp, hms, htr⟩ := hrec _ _ h₂
      obtain ⟨hread, hagree⟩ := dollarRead_restrict (hd _ _ _ _ hce h₁)
      simp only [h₁, hagree, List.append_assoc]
      exact (dollarRead_tracks_quoted hread after).trans htr hmp.1.pos_le hms
    by_cases hbt : b = '`'
    · subst hbt
      simp only [Lex.doubleQuotedLoop, quotedAgrees, hce] at h ⊢
      obtain ⟨m, h₁, h⟩ := bind_eq_ok.mp h
      obtain ⟨⟨ms₂, m₂⟩, h₂, h⟩ := bind_eq_ok.mp h
      obtain ⟨rfl, rfl⟩ : Region.backtick.marks ((c.extend t).skip 1) m ++ ms₂ = ms ∧
          m₂ = c'.extend t := by simpa using h
      obtain ⟨m, rfl, hmp, hms, htr⟩ := hrec _ _ h₂
      have hlog := quotedLog_append (quoted_backtick hc) after
      have hbtr := backtick_tracks (quotedLog · after) hc h₁ hlog
        (fun x hx => quotedLog_nil hx after)
      simp only [h₁, List.append_assoc]
      exact hbtr.trans htr hmp.1.pos_le hms
    · rw [doubleQuotedLoop_plain hce hq he hdol hbt] at h
      rw [quotedAgrees_plain hce hq he hdol hbt]
      obtain ⟨m, hm, -, -, htr⟩ := hrec _ _ h
      rw [extend_skip (by simp [hc])] at hm
      obtain rfl := extend_inj hm
      rw [quotedLog_congr (quoted_plain hc hq he hdol hbt)]
      exact htr

end Wasmsh.Extents

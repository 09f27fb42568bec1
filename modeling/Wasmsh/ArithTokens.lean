import Mathlib.Data.Bool.AllAny
import Wasmsh.ArithTrees

/-!
# The text of an arithmetic expression

An expression with decimal literals, written with one space between its tokens, is cut into its
tokens again, without a change of the state.
-/

namespace Wasmsh.Arith

open Braces

variable {rest : List Char} {c : Char}

/-! ## 1. Texts -/

/-- A name as `arith_tokenize` knows it. -/
structure Identifier where
  first : Char
  rest : List Char
  begins : (first.isAlpha || first == '_') = true
  continues : ∀ c ∈ rest, isIdentChar c = true

def Identifier.text (x : Identifier) : List Char := x.first :: x.rest

/-- How an operator, a parenthesis or a sign is written. -/
def ArithToken.text : ArithToken → List Char
  | .number _ | .ident _ => []
  | .plus => ['+']
  | .minus => ['-']
  | .star => ['*']
  | .slash => ['/']
  | .percent => ['%']
  | .starStar => ['*', '*']
  | .lShift => ['<', '<']
  | .rShift => ['>', '>']
  | .lt => ['<']
  | .gt => ['>']
  | .le => ['<', '=']
  | .ge => ['>', '=']
  | .eqEq => ['=', '=']
  | .ne => ['!', '=']
  | .amp => ['&']
  | .caret => ['^']
  | .pipe => ['|']
  | .ampAmp => ['&', '&']
  | .pipePipe => ['|', '|']
  | .bang => ['!']
  | .tilde => ['~']
  | .question => ['?']
  | .colon => [':']
  | .comma => [',']
  | .lParen => ['(']
  | .rParen => [')']
  | .eq => ['=']
  | .plusEq => ['+', '=']
  | .minusEq => ['-', '=']
  | .starEq => ['*', '=']
  | .slashEq => ['/', '=']
  | .percentEq => ['%', '=']
  | .lShiftEq => ['<', '<', '=']
  | .rShiftEq => ['>', '>', '=']
  | .ampEq => ['&', '=']
  | .caretEq => ['^', '=']
  | .pipeEq => ['|', '=']
  | .plusPlus => ['+', '+']
  | .minusMinus => ['-', '-']

/-- The value that the tokenizer gives a decimal literal. -/
def literal (n : Nat) : Int64 := orZero (parseI64 (Nat.toDigits 10 n))

def Lexeme.text : Lexeme Nat Identifier → List Char
  | .number n => Nat.toDigits 10 n
  | .name x => x.text
  | .sign t => t.text

/-- An expression with one space between its tokens. -/
def Expr.text (e : Expr Nat Identifier) : List Char :=
  [' '].intercalate (e.lexemes.map Lexeme.text)

/-! ## 2. One token -/

/-- What follows a token in a text: nothing, or a space. -/
def Ends (rest : List Char) : Prop := ∀ c ∈ rest.head?, c = ' '

theorem Ends.cases (h : Ends rest) : rest = [] ∨ ∃ us, rest = ' ' :: us := by
  cases rest with
  | nil => exact Or.inl rfl
  | cons c us => exact Or.inr ⟨us, by rw [h c rfl]⟩

/-- A turn of the tokenizer takes the text of a token. -/
def Taken (x : Expander) (text : List Char) (t : ArithToken) : Prop :=
  ∃ c cs, text = c :: cs ∧ isAsciiWhitespace c = false ∧
    ∀ rest st, Ends rest → arithTokenizeTurn x c (cs ++ rest) st = (some t, rest, st)

theorem taken_sign (x : Expander) {t : ArithToken} (h : t.text ≠ []) : Taken x t.text t := by
  have htaken : ∀ c cs, t.text = c :: cs → isAsciiWhitespace c = false →
      (∀ st, arithTokenizeTurn x c cs st = (some t, [], st)) →
      (∀ us st, arithTokenizeTurn x c (cs ++ ' ' :: us) st = (some t, ' ' :: us, st)) →
      Taken x t.text t := by
    intro c cs htext hc hend hspace
    refine ⟨c, cs, htext, hc, fun rest st hrest => ?_⟩
    rcases hrest.cases with rfl | ⟨us, rfl⟩
    · rw [List.append_nil]
      exact hend st
    · exact hspace us st
  cases t <;> first
    | exact absurd rfl h
    | exact htaken _ _ rfl rfl (fun _ => rfl) (fun _ _ => rfl)

theorem isAsciiWhitespace_of_letter (h : (c.isAlpha || c == '_') = true) :
    isAsciiWhitespace c = false := by
  by_contra hspace
  rw [Bool.not_eq_false] at hspace
  simp only [isAsciiWhitespace, Bool.or_eq_true, beq_iff_eq] at hspace
  rcases hspace with (((rfl | rfl) | rfl) | rfl) | rfl <;> cases h

theorem isIdentChar_of_letter (h : (c.isAlpha || c == '_') = true) :
    isIdentChar c = true := by
  rw [Bool.or_eq_true] at h
  unfold isIdentChar Char.isAlphanum
  rcases h with h | h
  · rw [h, Bool.true_or, Bool.true_or]
  · rw [h, Bool.or_true]

theorem Ends.takeWhile {p : Char → Bool} {text rest : List Char} (h : Ends rest)
    (hp : p ' ' = false) (htext : ∀ c ∈ text, p c = true) :
    (text ++ rest).takeWhile p = text ∧ (text ++ rest).dropWhile p = rest := by
  rw [List.takeWhile_append_of_pos htext, List.dropWhile_append_of_pos htext]
  rcases h.cases with rfl | ⟨us, rfl⟩ <;> simp [hp]

theorem taken_name (x : Expander) (i : Identifier) : Taken x i.text (.ident i.text) := by
  refine ⟨i.first, i.rest, rfl, isAsciiWhitespace_of_letter i.begins, fun rest st hrest => ?_⟩
  have hdollar : i.first ≠ '$' := by
    intro heq
    have hbegins := i.begins
    rw [heq] at hbegins
    cases hbegins
  have htext : ∀ c ∈ i.text, isIdentChar c = true := by
    intro c hc
    rcases List.mem_cons.mp hc with rfl | hc
    · exact isIdentChar_of_letter i.begins
    · exact i.continues c hc
  rcases hrest.takeWhile (p := isIdentChar) rfl htext with ⟨htake, hdrop⟩
  unfold arithTokenizeTurn arithTokenizeIdent
  rw [isAsciiWhitespace_of_letter i.begins, if_neg Bool.false_ne_true, if_neg hdollar,
    not_isDigit_of_isNameStart i.begins, if_neg Bool.false_ne_true, if_pos i.begins]
  change (some (ArithToken.ident ((i.text ++ rest).takeWhile isIdentChar)),
    (i.text ++ rest).dropWhile isIdentChar, st) = _
  rw [htake, hdrop]

/-- Only zero is written with a zero in front. -/
theorem head_toDigits {n : Nat} (hn : n ≠ 0) : (Nat.toDigits 10 n).head? ≠ some '0' := by
  induction n using Nat.strongRecOn with
  | ind n ih =>
    by_cases hlt : n < 10
    · rw [Nat.toDigits_of_lt_base hlt]
      intro heq
      have hdigit : n.digitChar = '0' := by simpa using heq
      have hvalue := Nat.toNat_digitChar_sub_48_of_lt_ten hlt
      rw [hdigit] at hvalue
      exact hn hvalue.symm
    · rw [Nat.toDigits_of_base_le (by decide) (not_lt.mp hlt),
        List.head?_append_of_ne_nil _ Nat.toDigits_ne_nil]
      apply ih (n / 10)
      · omega
      · omega

/-- No other radix is written in front of a decimal literal. -/
theorem arithTokenizePrefixedNumber_decimal (n : Nat) (hrest : Ends rest) :
    arithTokenizePrefixedNumber (Nat.toDigits 10 n ++ rest) = none := by
  by_cases hn : n = 0
  · subst hn
    rcases hrest.cases with rfl | ⟨us, rfl⟩ <;> rfl
  · have hhead := head_toDigits hn
    cases htext : Nat.toDigits 10 n with
    | nil => exact absurd htext Nat.toDigits_ne_nil
    | cons c cs =>
      rw [htext] at hhead
      have hc : c ≠ '0' := fun heq => hhead (by rw [heq]; rfl)
      rw [List.cons_append]
      unfold arithTokenizePrefixedNumber
      split
      · next heq => exact absurd (List.head_eq_of_cons_eq heq) hc
      · rfl

theorem arithTokenizeBaseSyntax_decimal (base : List Char)
    (hrest : Ends rest) : arithTokenizeBaseSyntax base rest = none := by
  rcases hrest.cases with rfl | ⟨us, rfl⟩ <;> rfl

theorem arithTokenizeNumber_decimal (n : Nat) (hrest : Ends rest) (st : ArithState) :
    arithTokenizeNumber (Nat.toDigits 10 n ++ rest) st = (.number (literal n), rest, st) := by
  have hdigits : ∀ c ∈ Nat.toDigits 10 n, c.isDigit = true := fun c hc =>
    Nat.isDigit_of_mem_toDigits (by decide) (le_refl 10) hc
  rcases hrest.takeWhile (p := Char.isDigit) rfl hdigits with ⟨htake, hdrop⟩
  simp only [arithTokenizeNumber, arithTokenizePrefixedNumber_decimal n hrest, htake, hdrop,
    arithTokenizeBaseSyntax_decimal _ hrest]
  rfl

theorem isAsciiWhitespace_of_digit (h : c.isDigit = true) :
    isAsciiWhitespace c = false := by
  by_contra hspace
  rw [Bool.not_eq_false] at hspace
  simp only [isAsciiWhitespace, Bool.or_eq_true, beq_iff_eq] at hspace
  rcases hspace with (((rfl | rfl) | rfl) | rfl) | rfl <;> cases h

theorem taken_number (x : Expander) (n : Nat) :
    Taken x (Nat.toDigits 10 n) (.number (literal n)) := by
  cases htext : Nat.toDigits 10 n with
  | nil => exact absurd htext Nat.toDigits_ne_nil
  | cons c cs =>
    have hc : c.isDigit = true := by
      apply Nat.isDigit_of_mem_toDigits (b := 10) (n := n) (by decide) (le_refl 10)
      rw [htext]
      exact .head _
    refine ⟨c, cs, rfl, isAsciiWhitespace_of_digit hc, fun rest st hrest => ?_⟩
    have hdollar : c ≠ '$' := by
      rintro rfl
      cases hc
    have hnumber := arithTokenizeNumber_decimal n hrest st
    rw [htext, List.cons_append] at hnumber
    unfold arithTokenizeTurn
    rw [isAsciiWhitespace_of_digit hc, if_neg Bool.false_ne_true, if_neg hdollar, if_pos hc,
      hnumber]

theorem Lexeme.taken (x : Expander) (l : Lexeme Nat Identifier)
    (h : ∀ t, l = .sign t → t.text ≠ []) :
    Taken x l.text (l.token literal Identifier.text) := by
  cases l with
  | number n => exact taken_number x n
  | name i => exact taken_name x i
  | sign t => exact taken_sign x (h t rfl)

/-! ## 3. All tokens -/

theorem arithTokenizeLoop_taken {x : Expander} {text rest : List Char} {t : ArithToken}
    (h : Taken x text t) (hrest : Ends rest) {n : Nat} (hn : (text ++ rest).length ≤ n)
    (st : ArithState) : ∃ m, rest.length ≤ m ∧
      arithTokenizeLoop x n (text ++ rest) st =
        (t :: (arithTokenizeLoop x m rest st).1, (arithTokenizeLoop x m rest st).2) := by
  rcases h with ⟨c, cs, rfl, -, hturn⟩
  cases n with
  | zero => cases hn
  | succ n =>
    refine ⟨n, ?_, ?_⟩
    · rw [List.cons_append, List.length_cons, List.length_append] at hn
      omega
    · simp only [List.cons_append, arithTokenizeLoop, hturn rest st hrest]
      rfl

theorem arithTokenizeLoop_space (x : Expander) (n : Nat) (us : List Char) (st : ArithState) :
    arithTokenizeLoop x (n + 1) (' ' :: us) st = arithTokenizeLoop x n us st := rfl

/-- The loop of the tokenizer, as long as it has a turn for every character. -/
theorem arithTokenizeLoop_intercalate {x : Expander} {texts : List (List Char)}
    {ts : List ArithToken} (h : List.Forall₂ (Taken x) texts ts) :
    ∀ n st, ([' '].intercalate texts).length ≤ n →
      arithTokenizeLoop x n ([' '].intercalate texts) st = (ts, st) := by
  induction h with
  | nil =>
    intro n st _
    cases n <;> rfl
  | @cons text t texts ts htaken hrest ih =>
    intro n st hn
    by_cases hnil : texts = []
    · subst hnil
      cases hrest
      rw [List.intercalate_singleton] at hn ⊢
      rw [← List.append_nil text] at hn ⊢
      have hends : Ends [] := by simp [Ends]
      rcases arithTokenizeLoop_taken htaken hends hn st with ⟨m, -, heq⟩
      rw [heq]
      cases m <;> rfl
    · rw [List.intercalate_cons_of_ne_nil hnil, List.append_assoc] at hn ⊢
      have hends : Ends ([' '] ++ [' '].intercalate texts) := by simp [Ends]
      rcases arithTokenizeLoop_taken htaken hends hn st with ⟨m, hm, heq⟩
      cases m with
      | zero => cases hm
      | succ m =>
        rw [heq, List.singleton_append, arithTokenizeLoop_space,
          ih m st (Nat.le_of_succ_le_succ hm)]

/-! ## 4. The whole text -/

theorem not_isWhitespace_of_isIdentChar (h : isIdentChar c = true) :
    isWhitespace c = false := by
  have hrange : c.toNat ∈ Set.Icc 48 57 ∨ c.toNat ∈ Set.Icc 65 90 ∨ c.toNat = 95 ∨
      c.toNat ∈ Set.Icc 97 122 := by
    simp only [isIdentChar, Char.isAlphanum, isAlpha_eq, Char.isDigit, Bool.or_eq_true, Bool.and_eq_true, decide_eq_true_eq, beq_iff_eq,
      ge_iff_le, UInt32.le_iff_toNat_le] at h
    rcases h with ((h | h) | h) | rfl
    · exact Or.inr (Or.inl h)
    · exact Or.inr (Or.inr (Or.inr h))
    · exact Or.inl h
    · exact Or.inr (Or.inr (Or.inl rfl))
  simp only [Set.mem_Icc] at hrange
  simp only [isWhitespace, Bool.or_eq_false_iff, Bool.and_eq_false_iff, decide_eq_false_iff_not,
    beq_eq_false_iff_ne]
  omega

theorem isIdentChar_of_digit (h : c.isDigit = true) : isIdentChar c = true := by
  unfold isIdentChar Char.isAlphanum
  rw [h, Bool.or_true, Bool.true_or]

theorem Lexeme.not_isWhitespace (l : Lexeme Nat Identifier) :
    ∀ c ∈ l.text, isWhitespace c = false := by
  cases l with
  | number n =>
    intro c hc
    apply not_isWhitespace_of_isIdentChar
    exact isIdentChar_of_digit (Nat.isDigit_of_mem_toDigits (by decide) (le_refl 10) hc)
  | name i =>
    intro c hc
    apply not_isWhitespace_of_isIdentChar
    rcases List.mem_cons.mp hc with rfl | hc
    · exact isIdentChar_of_letter i.begins
    · exact i.continues c hc
  | sign t =>
    change ∀ c ∈ t.text, isWhitespace c = false
    cases t <;> exact List.all_iff_forall_prop.mp rfl

theorem trim_of_ends {t : List Char} (hhead : ∀ c ∈ t.head?, isWhitespace c = false)
    (hlast : ∀ c ∈ t.getLast?, isWhitespace c = false) : trim t = t := by
  have hstays : ∀ us : List Char, (∀ c ∈ us.head?, isWhitespace c = false) →
      us.dropWhile isWhitespace = us := by
    intro us hus
    cases us with
    | nil => rfl
    | cons c us => rw [List.dropWhile_cons, hus c rfl, if_neg Bool.false_ne_true]
  rw [trim, hstays t hhead, hstays t.reverse, List.reverse_reverse]
  rwa [List.head?_reverse]

theorem intercalate_ne_nil {sep : List Char} {texts : List (List Char)} (hnil : texts ≠ [])
    (h : ∀ text ∈ texts, text ≠ []) : sep.intercalate texts ≠ [] := by
  cases texts with
  | nil => exact absurd rfl hnil
  | cons text texts =>
    cases text with
    | nil => exact absurd rfl (h [] (.head _))
    | cons c text =>
      rw [List.intercalate_cons_cons_left]
      exact List.cons_ne_nil _ _

/-- Texts without whitespace, one space between them, are not trimmed. -/
theorem trim_intercalate {texts : List (List Char)}
    (h : ∀ text ∈ texts, text ≠ [] ∧ ∀ c ∈ text, isWhitespace c = false) :
    trim ([' '].intercalate texts) = [' '].intercalate texts := by
  apply trim_of_ends
  · intro c hc
    cases texts with
    | nil => cases hc
    | cons text texts =>
      rcases h text (.head _) with ⟨hne, hspace⟩
      apply hspace c
      cases text with
      | nil => exact absurd rfl hne
      | cons d text =>
        rw [List.intercalate_cons_cons_left] at hc
        cases hc
        exact .head _
  · induction texts with
    | nil =>
      intro c hc
      cases hc
    | cons text texts ih =>
      intro c hc
      rcases h text (.head _) with ⟨-, hspace⟩
      by_cases hnil : texts = []
      · rw [hnil, List.intercalate_singleton] at hc
        exact hspace c (List.mem_of_getLast? hc)
      · have htexts : [' '].intercalate texts ≠ [] :=
          intercalate_ne_nil hnil fun text ht => (h text (.tail _ ht)).1
        rw [List.intercalate_cons_of_ne_nil hnil, List.getLast?_append,
          List.getLast?_eq_some_getLast htexts, Option.some_or] at hc
        apply ih (fun text ht => h text (.tail _ ht)) c
        rwa [List.getLast?_eq_some_getLast htexts]

theorem UnOp.text_ne_nil (op : UnOp) : op.token.text ≠ [] := by cases op <;> decide

theorem BinOp.text_ne_nil (op : BinOp) : op.token.text ≠ [] := by cases op <;> decide

theorem AssignOp.text_ne_nil (op : AssignOp) : op.token.text ≠ [] := by cases op <;> decide

theorem StepOp.text_ne_nil (op : StepOp) : op.token.text ≠ [] := by cases op <;> decide

/-- The signs of an expression have texts. -/
theorem Expr.written (e : Expr Nat Identifier) : Signs (fun t => t.text ≠ []) e.lexemes := by
  have hoperator : ∀ e : Expr Nat Identifier, e.Operator (fun t => t.text ≠ []) := by
    intro e
    cases e with
    | pre op x => exact op.text_ne_nil
    | post x op => exact op.text_ne_nil
    | unary op e => exact op.text_ne_nil
    | binary op a b => exact op.text_ne_nil
    | assign x op e => exact op.text_ne_nil
    | number | name | paren | pow | cond | comma => trivial
  exact Expr.signs (by decide) (Expr.All.of_forall hoperator e)

/-- The tokens of the text of an expression. -/
theorem Expr.arithTokenize_text (x : Expander) (e : Expr Nat Identifier) (st : ArithState) :
    arithTokenize x (trim e.text) st = (e.tokens literal Identifier.text, st) := by
  have htaken : List.Forall₂ (Taken x) (e.lexemes.map Lexeme.text)
      (e.tokens literal Identifier.text) := by
    unfold tokens
    rw [List.forall₂_map_left_iff, List.forall₂_map_right_iff, List.forall₂_same]
    intro l hl
    apply l.taken
    rintro t rfl
    exact e.written t hl
  have htrim : trim e.text = e.text := by
    apply trim_intercalate
    intro text htext
    rcases List.mem_map.mp htext with ⟨l, hl, rfl⟩
    refine ⟨?_, l.not_isWhitespace⟩
    rcases l.taken x (fun t ht => e.written t (ht ▸ hl)) with ⟨c, cs, heq, -⟩
    rw [heq]
    exact List.cons_ne_nil _ _
  rw [htrim]
  exact arithTokenizeLoop_intercalate htaken _ st (le_refl _)

end Wasmsh.Arith

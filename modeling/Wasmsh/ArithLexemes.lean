import Wasmsh.ArithBytes
import Wasmsh.ArithTokens

/-!
# What the arithmetic tokenizer reads

The tokens of an expression are read off its characters; only the values of its parameters
depend on the shell state.  The tokenizer on bytes reads the same, and slices nowhere inside
a character.
-/

namespace Wasmsh.Arith

open Braces

variable {c : Char}

/-! ## 1. Lexemes -/

/-- A token, a literal whose base the standard library refuses, or a parameter whose value is
    a token. -/
inductive ArithLexeme where
  | token (t : ArithToken)
  | refusedBase
  | parameter (name : List Char)
  deriving DecidableEq

/-- The lexeme of `arith_tokenize_number`. -/
def numberLexeme (cs : List Char) : ArithLexeme × List Char :=
  match arithTokenizePrefixedNumber cs with
  | some (n, rest) => (.token (.number n), rest)
  | none =>
    let digits := cs.takeWhile Char.isDigit
    let rest := cs.dropWhile Char.isDigit
    match arithTokenizeBaseSyntax digits rest with
    | some (n, rest, panics) => (if panics then .refusedBase else .token (.number n), rest)
    | none => (.token (.number (orZero (parseI64 digits))), rest)

/-- The lexeme of `arith_tokenize_dollar`. -/
def dollarLexeme (cs : List Char) : Option ArithLexeme × List Char :=
  match cs with
  | [] => (some (.token (.number 0)), [])
  | next :: rest =>
    if next = '{' then (some (.parameter (bracedName 1 rest).1), (bracedName 1 rest).2)
    else if next.isDigit then
      (some (.parameter (cs.takeWhile Char.isDigit)), cs.dropWhile Char.isDigit)
    else if next.isAlpha || next == '_' then (none, cs)
    else (some (.parameter [next]), rest)

/-- The lexeme of one turn of `arith_tokenize`. -/
def turnLexeme (c : Char) (cs : List Char) : Option ArithLexeme × List Char :=
  if isAsciiWhitespace c then (none, cs)
  else if c = '$' then dollarLexeme cs
  else if c.isDigit then (some (numberLexeme (c :: cs)).1, (numberLexeme (c :: cs)).2)
  else if c.isAlpha || c == '_' then
    (some (.token (arithTokenizeIdent (c :: cs)).1), (arithTokenizeIdent (c :: cs)).2)
  else ((arithTokenizeOperator c cs).1.map .token, (arithTokenizeOperator c cs).2)

def lexemesLoop : Nat → List Char → List ArithLexeme
  | 0, _ => []
  | _ + 1, [] => []
  | n + 1, c :: cs => (turnLexeme c cs).1.toList ++ lexemesLoop n (turnLexeme c cs).2

/-- The lexemes of a text. -/
def arithLexemes (cs : List Char) : List ArithLexeme := lexemesLoop cs.length cs

/-- The token of a lexeme. -/
def ArithLexeme.read (x : ParameterExpander) : ArithLexeme → ShellState → Option (ArithToken × ShellState)
  | .token t, s => some (t, s)
  | .refusedBase, _ => none
  | .parameter name, s => Bytes.parameterToken x name s

/-- The tokens of lexemes, read in their order. -/
def readLexemes (x : ParameterExpander) :
    List ArithLexeme → ShellState → Option (List ArithToken × ShellState)
  | [], s => some ([], s)
  | l :: ls, s => (l.read x s).bind fun found =>
    (readLexemes x ls found.2).map fun rest => (found.1 :: rest.1, rest.2)

/-- What one turn makes of its lexeme. -/
def readTurn (x : ParameterExpander) (turn : Option ArithLexeme × List Char) (s : ShellState) :
    Option (Option ArithToken × List Char × ShellState) :=
  match turn.1 with
  | none => some (none, turn.2, s)
  | some l => (l.read x s).map fun found => (some found.1, turn.2, found.2)

/-! ## 2. Operators -/

/-- The rest of the text as bytes. -/
def encodeRest {τ : Type} (r : τ × List Char) : τ × List Char := (r.1, Utf8.encode r.2)

/-- Reading goes on after the next character if it is the given one. -/
def onNext (next : Char) (after before : List Char → ArithToken × List Char) (cs : List Char) :
    ArithToken × List Char :=
  if cs.head? = some next then after cs.tail else before cs

/-- The function takes characters from the front, and the same from the bytes. -/
structure TakesFront {τ : Type} (f : List Char → τ × List Char) : Prop where
  encode : ∀ cs, f (Utf8.encode cs) = encodeRest (f cs)
  suffix : ∀ cs, (f cs).2 <:+ cs

theorem onNext_front {next : Char} {after before : List Char → ArithToken × List Char}
    (hnext : next.toNat < 0x80) (hafter : TakesFront after) (hbefore : TakesFront before) :
    TakesFront (onNext next after before) := by
  constructor
  · intro cs
    unfold onNext
    by_cases h : cs.head? = some next
    · rw [if_pos h, if_pos ((Utf8.head?_encode hnext cs).mpr h), Utf8.tail_encode hnext h,
        hafter.encode]
    · rw [if_neg h, if_neg (mt (Utf8.head?_encode hnext cs).mp h), hbefore.encode]
  · intro cs
    unfold onNext
    split
    · exact (hafter.suffix _).trans (List.tail_suffix cs)
    · exact hbefore.suffix cs

theorem one_front (t : ArithToken) : TakesFront (Prod.mk t) :=
  ⟨fun _ => rfl, fun cs => List.suffix_refl cs⟩

theorem two_front {next : Char} (hnext : next.toNat < 0x80) (two one : ArithToken) :
    TakesFront (onNext next (Prod.mk two) (Prod.mk one)) :=
  onNext_front hnext (one_front two) (one_front one)

theorem plusMinusStar_eq (c : Char) : arithTokenizePlusMinusStar c =
    if c = '+' then onNext '+' (Prod.mk .plusPlus) (onNext '=' (Prod.mk .plusEq) (Prod.mk .plus))
    else if c = '-' then
      onNext '-' (Prod.mk .minusMinus) (onNext '=' (Prod.mk .minusEq) (Prod.mk .minus))
    else onNext '*' (Prod.mk .starStar) (onNext '=' (Prod.mk .starEq) (Prod.mk .star)) := by
  funext cs
  unfold arithTokenizePlusMinusStar onNext
  split_ifs <;> cases cs <;> grind

theorem leftAngle_eq : arithTokenizeLeftAngle =
    onNext '<' (onNext '=' (Prod.mk .lShiftEq) (Prod.mk .lShift))
      (onNext '=' (Prod.mk .le) (Prod.mk .lt)) := by
  funext cs
  unfold arithTokenizeLeftAngle onNext
  rcases cs with _ | ⟨d, _ | ⟨e, t⟩⟩ <;> grind

theorem rightAngle_eq : arithTokenizeRightAngle =
    onNext '>' (onNext '=' (Prod.mk .rShiftEq) (Prod.mk .rShift))
      (onNext '=' (Prod.mk .ge) (Prod.mk .gt)) := by
  funext cs
  unfold arithTokenizeRightAngle onNext
  rcases cs with _ | ⟨d, _ | ⟨e, t⟩⟩ <;> grind

theorem ampPipe_eq (c : Char) : arithTokenizeAmpPipe c =
    if c = '&' then onNext '&' (Prod.mk .ampAmp) (onNext '=' (Prod.mk .ampEq) (Prod.mk .amp))
    else onNext '|' (Prod.mk .pipePipe) (onNext '=' (Prod.mk .pipeEq) (Prod.mk .pipe)) := by
  funext cs
  unfold arithTokenizeAmpPipe onNext
  split_ifs <;> cases cs <;> grind

theorem plusMinusStar_front (c : Char) : TakesFront (arithTokenizePlusMinusStar c) := by
  rw [plusMinusStar_eq]
  split_ifs
  · exact onNext_front (by decide) (one_front _) (two_front (by decide) _ _)
  · exact onNext_front (by decide) (one_front _) (two_front (by decide) _ _)
  · exact onNext_front (by decide) (one_front _) (two_front (by decide) _ _)

theorem ampPipe_front (c : Char) : TakesFront (arithTokenizeAmpPipe c) := by
  rw [ampPipe_eq]
  split_ifs
  · exact onNext_front (by decide) (one_front _) (two_front (by decide) _ _)
  · exact onNext_front (by decide) (one_front _) (two_front (by decide) _ _)

theorem leftAngle_front : TakesFront arithTokenizeLeftAngle := by
  rw [leftAngle_eq]
  exact onNext_front (by decide) (two_front (by decide) _ _) (two_front (by decide) _ _)

theorem rightAngle_front : TakesFront arithTokenizeRightAngle := by
  rw [rightAngle_eq]
  exact onNext_front (by decide) (two_front (by decide) _ _) (two_front (by decide) _ _)

theorem ite_front {τ : Type} {p : Prop} [Decidable p] {f g : List Char → τ × List Char}
    (hf : TakesFront f) (hg : TakesFront g) : TakesFront fun cs => if p then f cs else g cs := by
  split_ifs
  · exact hf
  · exact hg

/-- Operators are read off the bytes as off the text. -/
theorem operator_front (c : Char) : TakesFront (arithTokenizeOperator c) := by
  have hpush : ∀ {f : List Char → ArithToken × List Char}, TakesFront f →
      TakesFront fun cs => (some (f cs).1, (f cs).2) := by
    intro f hf
    constructor
    · intro cs
      rw [hf.encode]
      rfl
    · exact hf.suffix
  have htwo : ∀ two one : ArithToken, TakesFront fun cs =>
      (some (arithPushOp2 '=' two one cs).1, (arithPushOp2 '=' two one cs).2) :=
    fun two one => hpush (two_front (by decide) two one)
  have hone : ∀ t : Option ArithToken, TakesFront (Prod.mk t) :=
    fun t => ⟨fun _ => rfl, fun cs => List.suffix_refl cs⟩
  unfold arithTokenizeOperator
  refine ite_front (hpush (plusMinusStar_front c)) (ite_front (htwo _ _) (ite_front (htwo _ _) ?_))
  refine ite_front (hpush leftAngle_front) (ite_front (hpush rightAngle_front) ?_)
  refine ite_front (htwo _ _) (ite_front (htwo _ _) (ite_front (hpush (ampPipe_front c)) ?_))
  refine ite_front (htwo _ _) (ite_front (hone _) (ite_front (hone _) (ite_front (hone _) ?_)))
  exact ite_front (hone _) (ite_front (hone _) (ite_front (hone _) (hone _)))

/-! ## 3. Numbers, names and parameters -/

theorem isAlphanum_ascii (b : Char) (h : b.isAlphanum = true) : b.toNat < 0x80 := by
  delta Char.isAlphanum Char.isAlpha Char.isUpper Char.isLower Char.isDigit at h
  simp only [Bool.or_eq_true, Bool.and_eq_true, decide_eq_true_eq, ge_iff_le,
    UInt32.le_iff_toNat_le] at h
  have hval : b.toNat = b.val.toNat := rfl
  have hz : 'z'.val.toNat = 122 := rfl
  have hZ : 'Z'.val.toNat = 90 := rfl
  have h9 : '9'.val.toNat = 57 := rfl
  omega

theorem isDigit_ascii (b : Char) (h : b.isDigit = true) : b.toNat < 0x80 :=
  isAlphanum_ascii b (by rw [Char.isAlphanum, h, Bool.or_true])

theorem isAlpha_ascii (b : Char) (h : b.isAlpha = true) : b.toNat < 0x80 :=
  isAlphanum_ascii b (by rw [Char.isAlphanum, h, Bool.true_or])

theorem isLetter_ascii (b : Char) (h : (b.isAlpha || b == '_') = true) : b.toNat < 0x80 := by
  rw [Bool.or_eq_true, beq_iff_eq] at h
  rcases h with h | rfl
  · exact isAlpha_ascii b h
  · decide

theorem isIdentChar_ascii (b : Char) (h : isIdentChar b = true) : b.toNat < 0x80 := by
  rw [isIdentChar, Bool.or_eq_true, beq_iff_eq] at h
  rcases h with h | rfl
  · exact isAlphanum_ascii b h
  · decide

theorem isHexdigit_ascii (b : Char) (h : isHexdigit b = true) : b.toNat < 0x80 := by
  simp only [isHexdigit, Char.isDigit, Bool.or_eq_true, Bool.and_eq_true, decide_eq_true_eq,
    ge_iff_le, Char.le_def, UInt32.le_iff_toNat_le] at h
  have hval : b.toNat = b.val.toNat := rfl
  have hf : 'f'.val.toNat = 102 := rfl
  have hF : 'F'.val.toNat = 70 := rfl
  have h9 : '9'.val.toNat = 57 := rfl
  omega

theorem radixNumber_encode {radix : Nat} (pred : Char → Bool)
    (hpred : ∀ b, pred b = true → b.toNat < 0x80) (cs : List Char) :
    Bytes.radixNumber radix (Utf8.encode cs) ((Utf8.encode cs).dropWhile pred) =
      if radix ≤ 36 then some (encodeRest (arithTakeRadixNumber radix pred cs)) else none := by
  have hslice := Utf8.slice_encode (cs.takeWhile pred) (cs.dropWhile pred)
  rw [List.takeWhile_append_dropWhile] at hslice
  rw [Bytes.radixNumber, Utf8.dropWhile_encode hpred, hslice, Option.bind_some,
    Bytes.checkedFromStrRadix]
  split <;> rfl

theorem takeRadixNumber_encode {radix : Nat} (hradix : radix ≤ 36) {pred : Char → Bool}
    (hpred : ∀ b, pred b = true → b.toNat < 0x80) (cs : List Char) :
    Bytes.arithTakeRadixNumber radix pred (Utf8.encode cs) =
      some (encodeRest (arithTakeRadixNumber radix pred cs)) := by
  rw [Bytes.arithTakeRadixNumber, radixNumber_encode pred hpred, if_pos hradix]

theorem prefixedNumber_encode (cs : List Char) :
    Bytes.arithTokenizePrefixedNumber (Utf8.encode cs) =
      some ((arithTokenizePrefixedNumber cs).map encodeRest) := by
  have hbinary : ∀ b : Char, (b == '0' || b == '1') = true → b.toNat < 0x80 := by
    intro b hb
    rw [Bool.or_eq_true, beq_iff_eq, beq_iff_eq] at hb
    rcases hb with rfl | rfl <;> decide
  by_cases hzero : cs.head? = some '0'
  · obtain ⟨t, rfl⟩ := List.head?_eq_some_iff.mp hzero
    have hencode : Utf8.encode ('0' :: t) = '0' :: Utf8.encode t := rfl
    rw [hencode]
    rcases Utf8.encode_cases t with rfl | ⟨d, u, rfl, heq⟩ | ⟨d, u, b, bs, rfl, hd, heq, hb⟩
    · rfl
    · have hoctal := takeRadixNumber_encode (by decide : 8 ≤ 36) isDigit_ascii (d :: u)
      rw [heq] at hoctal ⊢
      rw [Bytes.arithTokenizePrefixedNumber, arithTokenizePrefixedNumber,
        takeRadixNumber_encode (by decide) isHexdigit_ascii,
        takeRadixNumber_encode (by decide) hbinary, hoctal]
      split_ifs <;> rfl
    · have hhex : ∀ {a : Char}, 0x80 ≤ a.toNat → ¬ (a = 'x' ∨ a = 'X') := by
        rintro a ha (rfl | rfl) <;> exact absurd ha (by decide)
      have hbin : ∀ {a : Char}, 0x80 ≤ a.toNat → ¬ (a = 'b' ∨ a = 'B') := by
        rintro a ha (rfl | rfl) <;> exact absurd ha (by decide)
      have hdigit : ∀ {a : Char}, 0x80 ≤ a.toNat → ¬ a.isDigit = true :=
        fun ha h => absurd (isDigit_ascii _ h) (Nat.not_lt.mpr ha)
      rw [heq, Bytes.arithTokenizePrefixedNumber, arithTokenizePrefixedNumber, if_neg (hhex hb),
        if_neg (hbin hb), if_neg (hdigit hb), if_neg (hhex hd), if_neg (hbin hd),
        if_neg (hdigit hd)]
      rfl
  · have hne : ∀ {ds : List Char}, ds.head? ≠ some '0' →
        ∀ next r, ds = '0' :: next :: r → False := by
      rintro ds hds next r rfl
      exact hds rfl
    rw [arithTokenizePrefixedNumber.eq_2 _ (hne hzero), Bytes.arithTokenizePrefixedNumber.eq_2 _
      (hne (mt (Utf8.head?_encode (by decide) cs).mp hzero))]
    rfl

/-- The base is refused by the standard library, or its number is read. -/
def checkedNumber (found : Option (Int64 × List Char × Bool)) :
    Option (Option (Int64 × List Char)) :=
  match found with
  | none => some none
  | some (n, rest, panics) => if panics then none else some (some (n, Utf8.encode rest))

theorem baseSyntax_encode (digits rest : List Char) :
    Bytes.arithTokenizeBaseSyntax (Utf8.encode (digits ++ rest)) (Utf8.encode rest) =
      checkedNumber (arithTokenizeBaseSyntax digits rest) := by
  by_cases hsharp : rest.head? = some '#'
  · obtain ⟨t, rfl⟩ := List.head?_eq_some_iff.mp hsharp
    have hencode : Utf8.encode ('#' :: t) = '#' :: Utf8.encode t := rfl
    have hslice := Utf8.slice_encode digits ('#' :: t)
    rw [hencode] at hslice ⊢
    rw [Bytes.arithTokenizeBaseSyntax, arithTokenizeBaseSyntax, hslice, Option.bind_some]
    cases parseUnsigned 32 (String.ofList digits) with
    | none => rfl
    | some radix =>
      dsimp only
      by_cases hrange : 2 ≤ radix ∧ radix ≤ 64
      · rw [if_pos hrange, if_pos hrange, radixNumber_encode _ isIdentChar_ascii]
        by_cases hradix : radix ≤ 36
        · rw [if_pos hradix, decide_eq_false (Nat.not_lt.mpr hradix)]
          rfl
        · rw [if_neg hradix, decide_eq_true (Nat.lt_of_not_le hradix)]
          rfl
      · rw [if_neg hrange, if_neg hrange]
        rfl
  · have hne : ∀ {ds : List Char}, ds.head? ≠ some '#' → ∀ r, ds = '#' :: r → False := by
      rintro ds hds r rfl
      exact hds rfl
    rw [arithTokenizeBaseSyntax.eq_2 _ _ (hne hsharp), Bytes.arithTokenizeBaseSyntax.eq_2 _ _
      (hne (mt (Utf8.head?_encode (by decide) rest).mp hsharp))]
    rfl

/-- A number is read off the bytes, unless its base is refused. -/
theorem number_encode (x : ParameterExpander) (hc : c.isDigit = true) (cs : List Char)
    (s : ShellState) :
    (Bytes.arithTokenizeNumber (Utf8.encode (c :: cs))).map
        (fun found => (some found.1, found.2, s)) =
      readTurn x (some (numberLexeme (c :: cs)).1, Utf8.encode (numberLexeme (c :: cs)).2) s := by
  have hencode : Utf8.encode (c :: cs) = c :: Utf8.encode cs := by
    rw [Utf8.encode_cons, Utf8.encodeChar_of_ascii (isDigit_ascii c hc), List.singleton_append]
  have hpos : (Utf8.encode (c :: cs)).tail.dropWhile Char.isDigit =
      Utf8.encode ((c :: cs).dropWhile Char.isDigit) := by
    rw [hencode, List.tail_cons, Utf8.dropWhile_encode isDigit_ascii,
      List.dropWhile_cons_of_pos hc]
  have hbase := baseSyntax_encode ((c :: cs).takeWhile Char.isDigit)
    ((c :: cs).dropWhile Char.isDigit)
  have hslice := Utf8.slice_encode ((c :: cs).takeWhile Char.isDigit)
    ((c :: cs).dropWhile Char.isDigit)
  rw [List.takeWhile_append_dropWhile] at hbase hslice
  unfold Bytes.arithTokenizeNumber numberLexeme
  rw [prefixedNumber_encode, Option.bind_some]
  cases arithTokenizePrefixedNumber (c :: cs) with
  | some found => rfl
  | none =>
    dsimp only [Option.map_none]
    rw [hpos, hbase]
    cases arithTokenizeBaseSyntax ((c :: cs).takeWhile Char.isDigit)
        ((c :: cs).dropWhile Char.isDigit) with
    | some found =>
      obtain ⟨n, rest, panics⟩ := found
      cases panics <;> rfl
    | none =>
      dsimp only [checkedNumber, Option.bind_some]
      rw [hslice]
      rfl

theorem ident_encode (hc : isIdentChar c = true) (cs : List Char) :
    Bytes.arithTokenizeIdent (Utf8.encode (c :: cs)) =
      some (encodeRest (arithTokenizeIdent (c :: cs))) := by
  have hpos : (Utf8.encode (c :: cs)).tail.dropWhile isIdentChar =
      Utf8.encode ((c :: cs).dropWhile isIdentChar) := by
    rw [Utf8.encode_cons, Utf8.encodeChar_of_ascii (isIdentChar_ascii c hc),
      List.singleton_append, List.tail_cons, Utf8.dropWhile_encode isIdentChar_ascii,
      List.dropWhile_cons_of_pos hc]
  have hslice := Utf8.slice_encode ((c :: cs).takeWhile isIdentChar)
    ((c :: cs).dropWhile isIdentChar)
  rw [List.takeWhile_append_dropWhile] at hslice
  unfold Bytes.arithTokenizeIdent
  dsimp only
  rw [hpos, hslice]
  rfl

theorem closingBrace_encode (depth : Nat) (cs : List Char) :
    Bytes.closingBrace depth (Utf8.encode cs) = Utf8.encode (Bytes.closingBrace depth cs) := by
  have hskip : ∀ {bs rest : List Char} {depth : Nat}, (∀ b ∈ bs, 0x80 ≤ b.toNat) →
      Bytes.closingBrace depth (bs ++ rest) = Bytes.closingBrace depth rest := by
    intro bs rest depth hbs
    induction bs with
    | nil => rfl
    | cons b bs ih =>
      have hb := hbs b (.head _)
      have hclose : b ≠ '}' := by
        rintro rfl
        exact absurd hb (by decide)
      have hopen : b ≠ '{' := by
        rintro rfl
        exact absurd hb (by decide)
      rw [List.cons_append, Bytes.closingBrace, if_neg hclose, if_neg hopen,
        ih fun b' hb' => hbs b' (.tail _ hb')]
  induction cs generalizing depth with
  | nil => rfl
  | cons c cs ih =>
    by_cases hc : c.toNat < 0x80
    · rw [Utf8.encode_cons, Utf8.encodeChar_of_ascii hc, List.singleton_append,
        Bytes.closingBrace, Bytes.closingBrace]
      split_ifs
      · rw [Utf8.encode_cons, Utf8.encodeChar_of_ascii hc, List.singleton_append]
      · exact ih _
      · exact ih _
      · exact ih _
    · obtain ⟨b, bs, heq, -, hall⟩ := Utf8.encodeChar_of_not_ascii (Nat.le_of_not_lt hc)
      have hclose : c ≠ '}' := by
        rintro rfl
        exact hc (by decide)
      have hopen : c ≠ '{' := by
        rintro rfl
        exact hc (by decide)
      rw [Utf8.encode_cons, hskip hall, Bytes.closingBrace, if_neg hclose, if_neg hopen, ih]

theorem tail_closingBrace_encode (depth : Nat) (cs : List Char) :
    (Utf8.encode (Bytes.closingBrace depth cs)).tail =
      Utf8.encode (Bytes.closingBrace depth cs).tail := by
  have hhead : Bytes.closingBrace depth cs = [] ∨
      (Bytes.closingBrace depth cs).head? = some '}' := by
    induction cs generalizing depth with
    | nil => exact .inl rfl
    | cons c cs ih =>
      rw [Bytes.closingBrace]
      split_ifs with hc
      · exact .inr (congrArg some hc)
      · exact ih _
      · exact ih _
      · exact ih _
  rcases hhead with heq | hhead
  · rw [heq]
    rfl
  · exact Utf8.tail_encode (by decide) hhead

theorem bracedName_eq (depth : Nat) (cs : List Char) :
    cs = (bracedName depth cs).1 ++ Bytes.closingBrace depth cs ∧
      (bracedName depth cs).2 = (Bytes.closingBrace depth cs).tail := by
  induction cs generalizing depth with
  | nil => exact ⟨rfl, rfl⟩
  | cons c cs ih =>
    rw [bracedName, Bytes.closingBrace]
    split_ifs
    · exact ⟨rfl, rfl⟩
    · exact ⟨congrArg (c :: ·) (ih _).1, (ih _).2⟩
    · exact ⟨congrArg (c :: ·) (ih _).1, (ih _).2⟩
    · exact ⟨congrArg (c :: ·) (ih _).1, (ih _).2⟩

theorem dollar_encode (x : ParameterExpander) (cs : List Char) (s : ShellState) :
    Bytes.arithTokenizeDollar x (Utf8.encode cs) s =
      readTurn x ((dollarLexeme cs).1, Utf8.encode (dollarLexeme cs).2) s := by
  have hother : ∀ {d b : Char} {u bs : List Char}, Utf8.encode (d :: u) = b :: bs →
      b ≠ '{' → ¬ b.isDigit = true → ¬ (b.isAlpha || b == '_') = true →
        Bytes.arithTokenizeDollar x (Utf8.encode (d :: u)) s =
          readTurn x (some (.parameter [d]), Utf8.encode u) s := by
    intro d b u bs heq hbrace hdigit halpha
    have hslice := Utf8.slice_encode (d :: u) []
    rw [List.append_nil, Utf8.encode_nil, heq] at hslice
    have hdrop : (b :: bs).drop (Utf8.encodeChar d).length = Utf8.encode u := by
      rw [← heq, Utf8.encode_cons, List.drop_left]
    rw [heq]
    unfold Bytes.arithTokenizeDollar
    dsimp only
    rw [if_neg hbrace, if_neg hdigit, if_neg halpha, hslice, Option.bind_some]
    dsimp only [List.head?_cons, Option.getD_some]
    rw [hdrop]
    rfl
  rcases Utf8.encode_cases cs with rfl | ⟨d, u, rfl, heq⟩ | ⟨d, u, b, bs, rfl, hd, heq, hb⟩
  · rfl
  · by_cases hbrace : d = '{'
    · subst hbrace
      obtain ⟨hsplit, hrest⟩ := bracedName_eq 1 u
      have hslice := Utf8.slice_encode (bracedName 1 u).1 (Bytes.closingBrace 1 u)
      rw [← hsplit] at hslice
      rw [heq]
      unfold Bytes.arithTokenizeDollar
      dsimp only
      rw [if_pos rfl, closingBrace_encode, hslice, Option.bind_some, tail_closingBrace_encode,
        ← hrest]
      rfl
    · by_cases hdigit : d.isDigit = true
      · have hslice := Utf8.slice_encode ((d :: u).takeWhile Char.isDigit)
          ((d :: u).dropWhile Char.isDigit)
        rw [List.takeWhile_append_dropWhile, ← Utf8.dropWhile_encode isDigit_ascii, heq] at hslice
        rw [heq]
        unfold Bytes.arithTokenizeDollar dollarLexeme
        dsimp only
        rw [if_neg hbrace, if_pos hdigit, if_neg hbrace, if_pos hdigit, hslice, Option.bind_some,
          ← heq, Utf8.dropWhile_encode isDigit_ascii]
        rfl
      · by_cases halpha : (d.isAlpha || d == '_') = true
        · rw [heq]
          unfold Bytes.arithTokenizeDollar dollarLexeme
          dsimp only
          rw [if_neg hbrace, if_neg hdigit, if_pos halpha, if_neg hbrace, if_neg hdigit,
            if_pos halpha, ← heq]
          rfl
        · rw [hother heq hbrace hdigit halpha]
          unfold dollarLexeme
          dsimp only
          rw [if_neg hbrace, if_neg hdigit, if_neg halpha]
  · have hbrace : ∀ {a : Char}, 0x80 ≤ a.toNat → a ≠ '{' := by
      rintro a ha rfl
      exact absurd ha (by decide)
    have hdigit : ∀ {a : Char}, 0x80 ≤ a.toNat → ¬ a.isDigit = true :=
      fun ha h => absurd (isDigit_ascii _ h) (Nat.not_lt.mpr ha)
    have halpha : ∀ {a : Char}, 0x80 ≤ a.toNat → ¬ (a.isAlpha || a == '_') = true :=
      fun ha h => absurd (isLetter_ascii _ h) (Nat.not_lt.mpr ha)
    rw [hother heq (hbrace hb) (hdigit hb) (halpha hb)]
    unfold dollarLexeme
    dsimp only
    rw [if_neg (hbrace hd), if_neg (hdigit hd), if_neg (halpha hd)]

theorem isAsciiWhitespace_ascii (b : Char) (h : isAsciiWhitespace b = true) : b.toNat < 0x80 := by
  simp only [isAsciiWhitespace, Bool.or_eq_true, beq_iff_eq] at h
  rcases h with (((rfl | rfl) | rfl) | rfl) | rfl <;> decide

/-- One turn at a character of ASCII. -/
theorem turn_encode (x : ParameterExpander) (hc : c.toNat < 0x80) (cs : List Char)
    (s : ShellState) :
    Bytes.arithTokenizeTurn x c (Utf8.encode cs) s =
      readTurn x ((turnLexeme c cs).1, Utf8.encode (turnLexeme c cs).2) s := by
  have hencode : c :: Utf8.encode cs = Utf8.encode (c :: cs) := by
    rw [Utf8.encode_cons, Utf8.encodeChar_of_ascii hc, List.singleton_append]
  unfold Bytes.arithTokenizeTurn turnLexeme
  split_ifs with hspace hdollar hdigit hletter
  · rfl
  · exact dollar_encode x cs s
  · rw [hencode]
    exact number_encode x hdigit cs s
  · rw [hencode, ident_encode (isIdentChar_of_letter hletter)]
    rfl
  · dsimp only
    rw [(operator_front c).encode]
    cases h : (arithTokenizeOperator c cs).1 with
    | none =>
      simp only [encodeRest, h]
      rfl
    | some t =>
      simp only [encodeRest, h]
      rfl

theorem prefixedNumber_suffix {cs : List Char} {found : Int64 × List Char}
    (h : arithTokenizePrefixedNumber (c :: cs) = some found) : found.2 <:+ cs := by
  by_cases hshape : ∃ next r, c :: cs = '0' :: next :: r
  · obtain ⟨next, r, heq⟩ := hshape
    obtain ⟨rfl, rfl⟩ := List.cons.inj heq
    have hr : ∀ pred, r.dropWhile pred <:+ next :: r :=
      fun pred => (List.dropWhile_suffix pred).trans (List.suffix_cons next r)
    rw [arithTokenizePrefixedNumber] at h
    split_ifs at h
    · cases h
      exact hr _
    · cases h
      exact hr _
    · cases h
      exact List.dropWhile_suffix _
  · rw [arithTokenizePrefixedNumber.eq_2 _ fun next r heq => hshape ⟨next, r, heq⟩] at h
    cases h

theorem baseSyntax_suffix {base rest : List Char} {found : Int64 × List Char × Bool}
    (h : arithTokenizeBaseSyntax base rest = some found) : found.2.1 <:+ rest := by
  unfold arithTokenizeBaseSyntax at h
  split at h
  · split at h
    · split at h
      · cases h
        exact (List.dropWhile_suffix _).trans (List.suffix_cons _ _)
      · cases h
    · cases h
  · cases h

theorem numberLexeme_suffix (hc : c.isDigit = true) (cs : List Char) :
    (numberLexeme (c :: cs)).2 <:+ cs := by
  have hrest : (c :: cs).dropWhile Char.isDigit <:+ cs := by
    rw [List.dropWhile_cons_of_pos hc]
    exact List.dropWhile_suffix _
  unfold numberLexeme
  split
  · next n rest hfound => exact @prefixedNumber_suffix c cs (n, rest) hfound
  · dsimp only
    split
    · next n rest panics hfound => exact (@baseSyntax_suffix _ _ (n, rest, panics) hfound).trans hrest
    · exact hrest

theorem turnLexeme_suffix (c : Char) (cs : List Char) : (turnLexeme c cs).2 <:+ cs := by
  have hdollar : (dollarLexeme cs).2 <:+ cs := by
    unfold dollarLexeme
    split
    · exact List.suffix_refl _
    · next next rest =>
      split_ifs
      · have hbrace : (bracedName 1 rest).2 <:+ rest := by
          obtain ⟨hsplit, htail⟩ := bracedName_eq 1 rest
          rw [htail]
          exact (List.tail_suffix _).trans ⟨_, hsplit.symm⟩
        exact hbrace.trans (List.suffix_cons _ _)
      · exact List.dropWhile_suffix _
      · exact List.suffix_refl _
      · exact List.suffix_cons _ _
  unfold turnLexeme
  split_ifs with hspace hd hdigit hletter
  · exact List.suffix_refl _
  · exact hdollar
  · exact numberLexeme_suffix hdigit cs
  · dsimp only [arithTokenizeIdent]
    rw [List.dropWhile_cons_of_pos (isIdentChar_of_letter hletter)]
    exact List.dropWhile_suffix _
  · exact (operator_front c).suffix cs

/-! ## 4. The whole text -/

theorem encode_suffix {cs ds : List Char} (h : cs <:+ ds) : Utf8.encode cs <:+ Utf8.encode ds := by
  obtain ⟨front, rfl⟩ := h
  rw [Utf8.encode_append]
  exact List.suffix_append _ _

theorem operator_of_not_ascii {b : Char} (hb : 0x80 ≤ b.toNat) (r : List Char) :
    arithTokenizeOperator b r = (none, r) := by
  have hne : ∀ d : Char, d.toNat < 0x80 → b ≠ d := by
    rintro d hd rfl
    omega
  simp [arithTokenizeOperator, hne]

/-- A turn at a byte or a character that is not ASCII skips it. -/
theorem turn_of_not_ascii {b : Char} (hb : 0x80 ≤ b.toNat) :
    isAsciiWhitespace b = false ∧ b ≠ '$' ∧ b.isDigit = false ∧
      (b.isAlpha || b == '_') = false := by
  have hfalse : ∀ {p : Char → Bool}, (∀ b, p b = true → b.toNat < 0x80) → p b = false := by
    intro p hp
    by_contra h
    exact absurd (hp b (Bool.of_not_eq_false h)) (Nat.not_lt.mpr hb)
  refine ⟨hfalse isAsciiWhitespace_ascii, ?_, hfalse isDigit_ascii, hfalse isLetter_ascii⟩
  rintro rfl
  exact absurd hb (by decide)

theorem loop_skip (x : ParameterExpander) {bs : List Char} (hbs : ∀ b ∈ bs, 0x80 ≤ b.toNat)
    (n : Nat) (r : List Char) (s : ShellState) :
    Bytes.arithTokenizeLoop x (bs.length + n) (bs ++ r) s = Bytes.arithTokenizeLoop x n r s := by
  induction bs with
  | nil => rw [List.length_nil, Nat.zero_add, List.nil_append]
  | cons b bs ih =>
    have hb := hbs b (.head _)
    obtain ⟨hspace, hdollar, hdigit, hletter⟩ := turn_of_not_ascii hb
    have hturn : Bytes.arithTokenizeTurn x b (bs ++ r) s = some (none, bs ++ r, s) := by
      unfold Bytes.arithTokenizeTurn
      rw [hspace, if_neg Bool.false_ne_true, if_neg hdollar, hdigit, if_neg Bool.false_ne_true,
        hletter, if_neg Bool.false_ne_true, operator_of_not_ascii hb]
    have hlength : (b :: bs).length + n = bs.length + n + 1 := by
      rw [List.length_cons]
      omega
    rw [hlength, List.cons_append, Bytes.arithTokenizeLoop, hturn, Option.bind_some,
      ih fun b' hb' => hbs b' (.tail _ hb')]
    dsimp only [Option.toList_none, List.nil_append]
    exact Option.map_id' 

/-- The tokenizer reads the lexemes of the text, whatever characters it has. -/
theorem arithTokenizeLoop_encode (x : ParameterExpander) (m : Nat) {n : Nat} {cs : List Char}
    (hm : cs.length ≤ m) (hn : (Utf8.encode cs).length ≤ n) (s : ShellState) :
    Bytes.arithTokenizeLoop x n (Utf8.encode cs) s = readLexemes x (lexemesLoop m cs) s := by
  induction m generalizing n cs s with
  | zero =>
    rw [List.length_eq_zero_iff.mp (Nat.le_zero.mp hm)]
    cases n <;> rfl
  | succ m ih =>
    cases cs with
    | nil => cases n <;> rfl
    | cons c cs =>
      rw [List.length_cons] at hm
      by_cases hc : c.toNat < 0x80
      · have hencode : Utf8.encode (c :: cs) = c :: Utf8.encode cs := by
          rw [Utf8.encode_cons, Utf8.encodeChar_of_ascii hc, List.singleton_append]
        rw [hencode, List.length_cons] at hn
        cases n with
        | zero => omega
        | succ n =>
          have hturn := turn_encode x hc cs s
          have hsuffix := turnLexeme_suffix c cs
          have hrest : ∀ s, Bytes.arithTokenizeLoop x n (Utf8.encode (turnLexeme c cs).2) s =
              readLexemes x (lexemesLoop m (turnLexeme c cs).2) s := by
            intro s
            refine ih (hsuffix.length_le.trans (by omega)) ?_ s
            exact (encode_suffix hsuffix).length_le.trans (by omega)
          rw [hencode, Bytes.arithTokenizeLoop, hturn, lexemesLoop]
          revert hrest
          rcases turnLexeme c cs with ⟨_ | l, rest⟩ <;> intro hrest
          · dsimp only [readTurn, Option.bind_some, Option.toList_none, List.nil_append]
            rw [hrest]
            exact Option.map_id'
          · dsimp only [readTurn, Option.toList_some, List.singleton_append]
            rw [readLexemes]
            cases l.read x s with
            | none => rfl
            | some found =>
              dsimp only [Option.map_some, Option.bind_some]
              rw [hrest]
              rfl
      · have hle := Nat.le_of_not_lt hc
        obtain ⟨b, bs, heq, -, hall⟩ := Utf8.encodeChar_of_not_ascii hle
        obtain ⟨hspace, hdollar, hdigit, hletter⟩ := turn_of_not_ascii hle
        have hturn : turnLexeme c cs = (none, cs) := by
          unfold turnLexeme
          rw [hspace, if_neg Bool.false_ne_true, if_neg hdollar, hdigit, if_neg Bool.false_ne_true,
            hletter, if_neg Bool.false_ne_true, operator_of_not_ascii hle]
          rfl
        rw [Utf8.encode_cons, List.length_append] at hn
        obtain ⟨k, rfl⟩ := Nat.exists_eq_add_of_le ((Nat.le_add_right _ _).trans hn)
        rw [Utf8.encode_cons, loop_skip x hall, lexemesLoop, hturn]
        exact ih (by omega) (by omega) s

theorem arithTokenize_lexemes (x : ParameterExpander) (cs : List Char) (s : ShellState) :
    Bytes.arithTokenize x cs s = readLexemes x (arithLexemes cs) s :=
  arithTokenizeLoop_encode x _ (le_refl _) (le_refl _) s

/-! ## 5. The tokenizer on characters -/

/-- Expansion of parameters that always returns. -/
def returning (x : Expander) : ParameterExpander :=
  fun name s => some (x.expandParameter 0 name s)

/-- What is returned with the state in it, if there is a state. -/
def withState {τ ρ : Type} (r : τ × ρ × ArithState) : Option (τ × ρ × ShellState) :=
  r.2.2.map fun s => (r.1, r.2.1, s)

theorem number_lexeme (x : ParameterExpander) (cs : List Char) (s : ShellState) :
    readTurn x (some (numberLexeme cs).1, (numberLexeme cs).2) s =
      (withState (arithTokenizeNumber cs (some s))).map fun r => (some r.1, r.2) := by
  unfold numberLexeme arithTokenizeNumber
  cases arithTokenizePrefixedNumber cs with
  | some found => rfl
  | none =>
    dsimp only
    cases arithTokenizeBaseSyntax (cs.takeWhile Char.isDigit) (cs.dropWhile Char.isDigit) with
    | none => rfl
    | some found =>
      rcases found with ⟨n, rest, _ | _⟩
      · rfl
      · rfl

theorem parameter_lexeme (x : Expander) (name rest : List Char) (s : ShellState) :
    readTurn (returning x) (some (.parameter name), rest) s =
      withState (some (.number (parameterValue x name (some s)).1), rest,
        (parameterValue x name (some s)).2) := by
  dsimp only [readTurn, ArithLexeme.read, Bytes.parameterToken, returning, withState,
    parameterValue, Option.bind_some]
  cases s.applyAll (x.expandParameter 0 name s).1 <;> rfl

theorem turn_lexeme (x : Expander) (c : Char) (cs : List Char) (s : ShellState) :
    readTurn (returning x) (turnLexeme c cs) s = withState (arithTokenizeTurn x c cs (some s)) := by
  unfold turnLexeme arithTokenizeTurn
  split
  · rfl
  split
  · unfold dollarLexeme arithTokenizeDollar
    cases cs with
    | nil => rfl
    | cons next rest =>
      dsimp only
      split
      · exact parameter_lexeme x _ _ s
      split
      · exact parameter_lexeme x _ _ s
      split
      · rfl
      · exact parameter_lexeme x _ _ s
  split
  · rw [number_lexeme]
    unfold withState
    rw [Option.map_map]
    rfl
  split
  · rfl
  · dsimp only
    cases (arithTokenizeOperator c cs).1 <;> rfl

theorem arithTokenizeTurn_none (x : Expander) (c : Char) (cs : List Char) :
    (arithTokenizeTurn x c cs none).2.2 = none := by
  unfold arithTokenizeTurn
  split
  · rfl
  split
  · unfold arithTokenizeDollar
    cases cs with
    | nil => rfl
    | cons next rest =>
      dsimp only
      split_ifs <;> rfl
  split
  · unfold arithTokenizeNumber
    split
    · rfl
    · dsimp only
      split
      · exact ite_self none
      · rfl
  split
  · rfl
  · rfl

theorem arithTokenizeLoop_none (x : Expander) (n : Nat) (cs : List Char) :
    (arithTokenizeLoop x n cs none).2 = none := by
  induction n generalizing cs with
  | zero => rfl
  | succ n ih =>
    cases cs with
    | nil => rfl
    | cons c cs =>
      rw [arithTokenizeLoop, arithTokenizeTurn_none]
      exact ih _

theorem lexemesLoop_read (x : Expander) (n : Nat) (cs : List Char) (s : ShellState) :
    readLexemes (returning x) (lexemesLoop n cs) s =
      (arithTokenizeLoop x n cs (some s)).2.map fun s' =>
        ((arithTokenizeLoop x n cs (some s)).1, s') := by
  induction n generalizing cs s with
  | zero => rfl
  | succ n ih =>
    cases cs with
    | nil => rfl
    | cons c cs =>
      have hturn := turn_lexeme x c cs s
      rw [lexemesLoop, arithTokenizeLoop]
      generalize arithTokenizeTurn x c cs (some s) = turn at hturn ⊢
      generalize turnLexeme c cs = lexeme at hturn ⊢
      rcases turn with ⟨t, rest, st⟩
      rcases lexeme with ⟨_ | l, rest'⟩
      · cases st with
        | none => cases hturn
        | some s' =>
          cases hturn
          dsimp only [Option.toList_none, List.nil_append]
          exact ih rest s
      · dsimp only [readTurn, withState] at hturn
        dsimp only [Option.toList_some, List.singleton_append]
        rw [readLexemes]
        cases hl : l.read (returning x) s with
        | none =>
          rw [hl] at hturn
          cases st with
          | none =>
            rw [arithTokenizeLoop_none]
            rfl
          | some s' => cases hturn
        | some found =>
          rw [hl] at hturn
          cases st with
          | none => cases hturn
          | some s' =>
            cases hturn
            rw [Option.bind_some, ih, Option.map_map]
            rfl

/-- The tokenizer on bytes reads what the one on characters reads, and returns where that
    leaves a state. -/
theorem arithTokenize_characters (x : Expander) (cs : List Char) (s : ShellState) :
    Bytes.arithTokenize (returning x) cs s =
      (arithTokenize x cs (some s)).2.map fun s' => ((arithTokenize x cs (some s)).1, s') := by
  rw [arithTokenize_lexemes]
  exact lexemesLoop_read x _ cs s

end Wasmsh.Arith

import Wasmsh.Expansion
import Wasmsh.Library.Chains

/-!
# Arithmetic

`eval_arithmetic` of `wasmsh-expand/src/lib.rs`: the tokenizer and the recursive-descent parser
that computes while it reads.  The remaining tokens stand for the position.  The state is
`none` after a step that does not return: a write along namerefs that lead in a circle, or a
radix above 36, at which the standard library panics.
-/

namespace Wasmsh.Arith

open Braces Chains

/-! ## 1. Tokens -/

/-- `ArithToken`. -/
inductive ArithToken where
  | number (value : Int64)
  | ident (name : List Char)
  | plus | minus | star | slash | percent | starStar | lShift | rShift
  | lt | gt | le | ge | eqEq | ne
  | amp | caret | pipe | ampAmp | pipePipe
  | bang | tilde | question | colon | comma | lParen | rParen
  | eq | plusEq | minusEq | starEq | slashEq | percentEq | lShiftEq | rShiftEq
  | ampEq | caretEq | pipeEq
  | plusPlus | minusMinus
  deriving DecidableEq, Repr

/-- The shell state, `none` when the evaluation has not returned. -/
abbrev ArithState := Option ShellState

/-- The value of a digit of a radix up to 36. -/
def radixDigit (c : Char) : Option Nat :=
  if c.isDigit then some (c.toNat - '0'.toNat)
  else if c.isLower then some (c.toNat - 'a'.toNat + 10)
  else if c.isUpper then some (c.toNat - 'A'.toNat + 10)
  else none

/-- `i64::from_str_radix` on a text without a sign. -/
def fromStrRadix (radix : Nat) (cs : List Char) : Option Int :=
  match cs.mapM fun c => (radixDigit c).filter (· < radix) with
  | none => none
  | some [] => none
  | some digits =>
    (some (digits.foldl (fun n d => radix * n + d) 0 : Int)).filter (· < 2 ^ 63)

/-- A value read by the standard library, zero when it could not be read. -/
def orZero (value : Option Int) : Int64 := Int64.ofInt (value.getD 0)

/-- `arith_take_radix_number`: the number and the rest of the text. -/
def arithTakeRadixNumber (radix : Nat) (pred : Char → Bool) (cs : List Char) :
    Int64 × List Char :=
  (orZero (fromStrRadix radix (cs.takeWhile pred)), cs.dropWhile pred)

def isHexdigit (c : Char) : Bool :=
  c.isDigit || (decide ('a' ≤ c) && decide (c ≤ 'f')) || (decide ('A' ≤ c) && decide (c ≤ 'F'))

/-- `arith_tokenize_prefixed_number`. -/
def arithTokenizePrefixedNumber : List Char → Option (Int64 × List Char)
  | '0' :: next :: cs =>
    if next = 'x' ∨ next = 'X' then some (arithTakeRadixNumber 16 isHexdigit cs)
    else if next = 'b' ∨ next = 'B' then
      some (arithTakeRadixNumber 2 (fun c => c == '0' || c == '1') cs)
    else if next.isDigit then some (arithTakeRadixNumber 8 Char.isDigit (next :: cs))
    else none
  | _ => none

/-- A character of an identifier after its first. -/
def isIdentChar (c : Char) : Bool := c.isAlphanum || c == '_'

/-- `arith_tokenize_base_syntax` after the digits of the base; the flag says that the radix is
    one at which `from_str_radix` panics. -/
def arithTokenizeBaseSyntax (base : List Char) : List Char → Option (Int64 × List Char × Bool)
  | '#' :: cs =>
    match parseUnsigned 32 (String.ofList base) with
    | some radix =>
      if 2 ≤ radix ∧ radix ≤ 64 then
        some (orZero (fromStrRadix radix (cs.takeWhile isIdentChar)), cs.dropWhile isIdentChar,
          decide (36 < radix))
      else none
    | none => none
  | _ => none

/-- `arith_tokenize_number`. -/
def arithTokenizeNumber (cs : List Char) (st : ArithState) :
    ArithToken × List Char × ArithState :=
  match arithTokenizePrefixedNumber cs with
  | some (n, rest) => (.number n, rest, st)
  | none =>
    let digits := cs.takeWhile Char.isDigit
    let rest := cs.dropWhile Char.isDigit
    match arithTokenizeBaseSyntax digits rest with
    | some (n, rest, panics) => (.number n, rest, if panics then none else st)
    | none => (.number (orZero (parseI64 digits)), rest, st)

/-- `arith_tokenize_ident`, its first character known to be one of an identifier. -/
def arithTokenizeIdent (cs : List Char) : ArithToken × List Char :=
  (.ident (cs.takeWhile isIdentChar), cs.dropWhile isIdentChar)

/-- `arith_push_op2`. -/
def arithPushOp2 (next : Char) (tok2 tok1 : ArithToken) (cs : List Char) :
    ArithToken × List Char :=
  if cs.head? = some next then (tok2, cs.tail) else (tok1, cs)

/-- `arith_tokenize_plus_minus_star`. -/
def arithTokenizePlusMinusStar (c : Char) (cs : List Char) : ArithToken × List Char :=
  if c = '+' then
    match cs with
    | '+' :: cs => (.plusPlus, cs)
    | '=' :: cs => (.plusEq, cs)
    | cs => (.plus, cs)
  else if c = '-' then
    match cs with
    | '-' :: cs => (.minusMinus, cs)
    | '=' :: cs => (.minusEq, cs)
    | cs => (.minus, cs)
  else
    match cs with
    | '*' :: cs => (.starStar, cs)
    | '=' :: cs => (.starEq, cs)
    | cs => (.star, cs)

/-- `arith_tokenize_left_angle`. -/
def arithTokenizeLeftAngle : List Char → ArithToken × List Char
  | '<' :: '=' :: cs => (.lShiftEq, cs)
  | '<' :: cs => (.lShift, cs)
  | '=' :: cs => (.le, cs)
  | cs => (.lt, cs)

/-- `arith_tokenize_right_angle`. -/
def arithTokenizeRightAngle : List Char → ArithToken × List Char
  | '>' :: '=' :: cs => (.rShiftEq, cs)
  | '>' :: cs => (.rShift, cs)
  | '=' :: cs => (.ge, cs)
  | cs => (.gt, cs)

/-- `arith_tokenize_amp_pipe`. -/
def arithTokenizeAmpPipe (c : Char) (cs : List Char) : ArithToken × List Char :=
  if c = '&' then
    match cs with
    | '&' :: cs => (.ampAmp, cs)
    | '=' :: cs => (.ampEq, cs)
    | cs => (.amp, cs)
  else
    match cs with
    | '|' :: cs => (.pipePipe, cs)
    | '=' :: cs => (.pipeEq, cs)
    | cs => (.pipe, cs)

/-- `arith_tokenize_operator`; an unknown character is skipped. -/
def arithTokenizeOperator (c : Char) (cs : List Char) : Option ArithToken × List Char :=
  let push (r : ArithToken × List Char) : Option ArithToken × List Char := (some r.1, r.2)
  if c = '+' ∨ c = '-' ∨ c = '*' then push (arithTokenizePlusMinusStar c cs)
  else if c = '/' then push (arithPushOp2 '=' .slashEq .slash cs)
  else if c = '%' then push (arithPushOp2 '=' .percentEq .percent cs)
  else if c = '<' then push (arithTokenizeLeftAngle cs)
  else if c = '>' then push (arithTokenizeRightAngle cs)
  else if c = '=' then push (arithPushOp2 '=' .eqEq .eq cs)
  else if c = '!' then push (arithPushOp2 '=' .ne .bang cs)
  else if c = '&' ∨ c = '|' then push (arithTokenizeAmpPipe c cs)
  else if c = '^' then push (arithPushOp2 '=' .caretEq .caret cs)
  else if c = '~' then (some .tilde, cs)
  else if c = '?' then (some .question, cs)
  else if c = ':' then (some .colon, cs)
  else if c = ',' then (some .comma, cs)
  else if c = '(' then (some .lParen, cs)
  else if c = ')' then (some .rParen, cs)
  else (none, cs)

/-- The text up to the `}` that closes a `${`, at a nesting depth, and the rest. -/
def bracedName : Nat → List Char → List Char × List Char
  | _, [] => ([], [])
  | depth, c :: cs =>
    if c = '}' then
      if depth ≤ 1 then ([], cs)
      else
        let r := bracedName (depth - 1) cs
        (c :: r.1, r.2)
    else
      let r := bracedName (if c = '{' then depth + 1 else depth) cs
      (c :: r.1, r.2)

/-- The value of a parameter as a number. -/
def parameterValue (x : Expander) (name : List Char) (st : ArithState) : Int64 × ArithState :=
  match st with
  | none => (0, none)
  | some s =>
    let out := x.expandParameter 0 name s
    (orZero (parseI64 (trim out.2)), (s.applyAll out.1).map fun s => s.takeNounsetError.2)

/-- `arith_tokenize_dollar` after the `$`; a name is left for the identifiers. -/
def arithTokenizeDollar (x : Expander) (cs : List Char) (st : ArithState) :
    Option ArithToken × List Char × ArithState :=
  let push (name rest : List Char) : Option ArithToken × List Char × ArithState :=
    let value := parameterValue x name st
    (some (.number value.1), rest, value.2)
  match cs with
  | [] => (some (.number 0), [], st)
  | next :: rest =>
    if next = '{' then
      let r := bracedName 1 rest
      push r.1 r.2
    else if next.isDigit then push (cs.takeWhile Char.isDigit) (cs.dropWhile Char.isDigit)
    else if next.isAlpha || next == '_' then (none, cs, st)
    else push [next] rest

/-- One turn of the loop of `arith_tokenize`: a token, or none, and the rest of the text. -/
def arithTokenizeTurn (x : Expander) (c : Char) (cs : List Char) (st : ArithState) :
    Option ArithToken × List Char × ArithState :=
  if isAsciiWhitespace c then (none, cs, st)
  else if c = '$' then arithTokenizeDollar x cs st
  else if c.isDigit then
    let r := arithTokenizeNumber (c :: cs) st
    (some r.1, r.2)
  else if c.isAlpha || c == '_' then
    let r := arithTokenizeIdent (c :: cs)
    (some r.1, r.2, st)
  else
    let r := arithTokenizeOperator c cs
    (r.1, r.2, st)

/-- The loop of `arith_tokenize`, with as many turns as there are characters. -/
def arithTokenizeLoop (x : Expander) :
    Nat → List Char → ArithState → List ArithToken × ArithState
  | 0, _, st => ([], st)
  | _ + 1, [], st => ([], st)
  | n + 1, c :: cs, st =>
    let turn := arithTokenizeTurn x c cs st
    let rest := arithTokenizeLoop x n turn.2.1 turn.2.2
    (turn.1.toList ++ rest.1, rest.2)

/-- `arith_tokenize`. -/
def arithTokenize (x : Expander) (cs : List Char) (st : ArithState) :
    List ArithToken × ArithState :=
  arithTokenizeLoop x cs.length cs st

/-! ## 2. Variables and errors -/

/-- The text of the error of the depth guard. -/
def recursionLimit : String := "expression recursion limit exceeded"

/-- The text of the error of a division. -/
def divisionByZero : String := "division by 0"

/-- `set_arith_error`. -/
def setArithError (message : String) (st : ArithState) : ArithState :=
  st.map (·.setArithError message)

/-- `var_get`; reading `RANDOM` changes the state. -/
def varGet (name : List Char) (st : ArithState) : Int64 × ArithState :=
  match st with
  | none => (0, none)
  | some s =>
    let read := s.readVar (String.ofList name)
    (orZero (read.1.bind fun v => parseI64 v.toList), some read.2)

/-- Reading a variable takes at most a random number. -/
theorem varGet_some (name : List Char) (s : ShellState) :
    ∃ seed, (varGet name (some s)).2 = some { s with randomSeed := seed } := by
  have hstate : (varGet name (some s)).2 = some (s.readVar (String.ofList name)).2 := rfl
  rw [hstate, ShellState.readVar_state]
  split
  · exact ⟨_, rfl⟩
  · exact ⟨s.randomSeed, rfl⟩

/-- `var_set`. -/
def varSet (name : List Char) (value : Int64) (st : ArithState) : ArithState :=
  st.bind (·.setVar (String.ofList name) (toString value.toInt))

/-! ## 3. Operators -/

def ofBool (b : Bool) : Int64 := if b then 1 else 0

/-- The loop of `wrapping_pow`, with as many turns as the exponent has bits. -/
def wrappingPowLoop : Nat → Nat → Int64 → Int64 → Int64
  | 0, _, result, _ => result
  | n + 1, exp, result, b =>
    if exp = 0 then result
    else wrappingPowLoop n (exp / 2) (if exp % 2 = 1 then result * b else result) (b * b)

/-- `wrapping_pow`. -/
def wrappingPow (base exp : Int64) : Int64 :=
  if exp < 0 then 0 else wrappingPowLoop 64 exp.toInt.toNat 1 base

/-- What an operator does that has no errors. -/
def pureOp (f : Int64 → Int64 → Int64) : Action ArithState Int64 := fun a b st => (f a b, st)

/-- A division, or the remainder of one. -/
def divisionOp (f : Int64 → Int64 → Int64) : Action ArithState Int64 := fun a b st =>
  if b = 0 then (0, setArithError divisionByZero st) else (f a b, st)

def commaOp : ArithToken → Option (Action ArithState Int64)
  | .comma => some (pureOp fun _ b => b)
  | _ => none

def logicalOrOp : ArithToken → Option (Action ArithState Int64)
  | .pipePipe => some (pureOp fun a b => ofBool (a != 0 || b != 0))
  | _ => none

def logicalAndOp : ArithToken → Option (Action ArithState Int64)
  | .ampAmp => some (pureOp fun a b => ofBool (a != 0 && b != 0))
  | _ => none

def bitwiseOrOp : ArithToken → Option (Action ArithState Int64)
  | .pipe => some (pureOp fun a b => a ||| b)
  | _ => none

def bitwiseXorOp : ArithToken → Option (Action ArithState Int64)
  | .caret => some (pureOp fun a b => a ^^^ b)
  | _ => none

def bitwiseAndOp : ArithToken → Option (Action ArithState Int64)
  | .amp => some (pureOp fun a b => a &&& b)
  | _ => none

def equalityOp : ArithToken → Option (Action ArithState Int64)
  | .eqEq => some (pureOp fun a b => ofBool (a == b))
  | .ne => some (pureOp fun a b => ofBool (a != b))
  | _ => none

def relationalOp : ArithToken → Option (Action ArithState Int64)
  | .lt => some (pureOp fun a b => ofBool (decide (a < b)))
  | .gt => some (pureOp fun a b => ofBool (decide (b < a)))
  | .le => some (pureOp fun a b => ofBool (decide (a ≤ b)))
  | .ge => some (pureOp fun a b => ofBool (decide (b ≤ a)))
  | _ => none

/-- `wrapping_shl` and `wrapping_shr` take the count modulo 64. -/
def shiftOp : ArithToken → Option (Action ArithState Int64)
  | .lShift => some (pureOp fun a b => a <<< b)
  | .rShift => some (pureOp fun a b => a >>> b)
  | _ => none

def additiveOp : ArithToken → Option (Action ArithState Int64)
  | .plus => some (pureOp fun a b => a + b)
  | .minus => some (pureOp fun a b => a - b)
  | _ => none

def multiplicativeOp : ArithToken → Option (Action ArithState Int64)
  | .star => some (pureOp fun a b => a * b)
  | .slash => some (divisionOp fun a b => a / b)
  | .percent => some (divisionOp fun a b => a % b)
  | _ => none

/-- `is_assign_op` and `apply_compound_op`: what an assignment makes of the value of the
    variable and that of its right side. -/
def assignOp : ArithToken → Option (Int64 → Int64 → Int64)
  | .eq => some fun _ rhs => rhs
  | .plusEq => some fun cur rhs => cur + rhs
  | .minusEq => some fun cur rhs => cur - rhs
  | .starEq => some fun cur rhs => cur * rhs
  | .slashEq => some fun cur rhs => if rhs = 0 then 0 else cur / rhs
  | .percentEq => some fun cur rhs => if rhs = 0 then 0 else cur % rhs
  | .lShiftEq => some fun cur rhs => cur <<< rhs
  | .rShiftEq => some fun cur rhs => cur >>> rhs
  | .ampEq => some fun cur rhs => cur &&& rhs
  | .caretEq => some fun cur rhs => cur ^^^ rhs
  | .pipeEq => some fun cur rhs => cur ||| rhs
  | _ => none

/-- What an assignment reads of its variable; `=` reads nothing. -/
def assignRead (op : ArithToken) (name : List Char) (st : ArithState) : Int64 × ArithState :=
  if op = .eq then (0, st) else varGet name st

/-! ## 4. The parser -/

abbrev ArithParser := Parser ArithToken ArithState Int64

section Levels

variable (assign exponentiation : ArithParser)

/-- `parse_multiplicative`. -/
def parseMultiplicative : ArithParser := level multiplicativeOp exponentiation

/-- `parse_additive`. -/
def parseAdditive : ArithParser := level additiveOp (parseMultiplicative exponentiation)

/-- `parse_shift`. -/
def parseShift : ArithParser := level shiftOp (parseAdditive exponentiation)

/-- `parse_relational`. -/
def parseRelational : ArithParser := level relationalOp (parseShift exponentiation)

/-- `parse_equality`. -/
def parseEquality : ArithParser := level equalityOp (parseRelational exponentiation)

/-- `parse_bitwise_and`. -/
def parseBitwiseAnd : ArithParser := level bitwiseAndOp (parseEquality exponentiation)

/-- `parse_bitwise_xor`. -/
def parseBitwiseXor : ArithParser := level bitwiseXorOp (parseBitwiseAnd exponentiation)

/-- `parse_bitwise_or`. -/
def parseBitwiseOr : ArithParser := level bitwiseOrOp (parseBitwiseXor exponentiation)

/-- `parse_logical_and`. -/
def parseLogicalAnd : ArithParser := level logicalAndOp (parseBitwiseOr exponentiation)

/-- `parse_logical_or`. -/
def parseLogicalOr : ArithParser := level logicalOrOp (parseLogicalAnd exponentiation)

/-- `eat`. -/
def eat (expected : ArithToken) : List ArithToken → List ArithToken
  | t :: ts => if t = expected then ts else t :: ts
  | [] => []

/-- `parse_ternary`. -/
def parseTernary : ArithParser := fun ts st =>
  let cond := parseLogicalOr exponentiation ts st
  match cond.2.1 with
  | .question :: rest =>
    let thenVal := assign rest cond.2.2
    let elseVal := assign (eat .colon thenVal.2.1) thenVal.2.2
    (if cond.1 ≠ 0 then thenVal.1 else elseVal.1, elseVal.2)
  | _ => cond

/-- `parse_expr`. -/
def parseExpr : ArithParser := level commaOp assign

/-- `parse_primary`. -/
def parsePrimary : ArithParser := fun ts st =>
  match ts with
  | .number n :: rest => (n, rest, st)
  | .ident name :: .plusPlus :: rest =>
    let cur := varGet name st
    (cur.1, rest, varSet name (cur.1 + 1) cur.2)
  | .ident name :: .minusMinus :: rest =>
    let cur := varGet name st
    (cur.1, rest, varSet name (cur.1 - 1) cur.2)
  | .ident name :: rest =>
    let cur := varGet name st
    (cur.1, rest, cur.2)
  | .lParen :: rest =>
    let r := parseExpr assign rest st
    (r.1, eat .rParen r.2.1, r.2.2)
  | _ :: rest => (0, rest, st)
  | [] => (0, [], st)

/-- `parse_pre_incdec` after its operator. -/
def parsePreIncdec (delta : Int64) : ArithParser := fun ts st =>
  match ts with
  | .ident name :: rest =>
    let cur := varGet name st
    (cur.1 + delta, rest, varSet name (cur.1 + delta) cur.2)
  | ts => (0, ts, st)

end Levels

/-- The depth guard, with no room left. -/
def limitReached : ArithParser := fun ts st => (0, ts, setArithError recursionLimit st)

mutual

/-- `parse_assign`; the first argument is the number of levels that may still be entered. -/
def parseAssign : Nat → ArithParser
  | 0 => limitReached
  | room + 1 => fun ts st =>
    match ts with
    | .ident name :: op :: rest =>
      match assignOp op with
      | some apply =>
        let rhs := parseAssign room rest st
        let cur := assignRead op name rhs.2.2
        let result := apply cur.1 rhs.1
        (result, rhs.2.1, varSet name result cur.2)
      | none => parseTernary (parseAssign room) (parseExponentiation room) ts st
    | _ => parseTernary (parseAssign room) (parseExponentiation room) ts st

/-- `parse_exponentiation`. -/
def parseExponentiation : Nat → ArithParser
  | 0 => limitReached
  | room + 1 => fun ts st =>
    let base := parseUnary room ts st
    match base.2.1 with
    | .starStar :: rest =>
      let exp := parseExponentiation room rest base.2.2
      (wrappingPow base.1 exp.1, exp.2)
    | _ => base

/-- `parse_unary`. -/
def parseUnary : Nat → ArithParser
  | 0 => limitReached
  | room + 1 => fun ts st =>
    match ts with
    | .bang :: rest =>
      let r := parseUnary room rest st
      (ofBool (r.1 == 0), r.2)
    | .tilde :: rest =>
      let r := parseUnary room rest st
      (~~~r.1, r.2)
    | .plus :: rest => parseUnary room rest st
    | .minus :: rest =>
      let r := parseUnary room rest st
      (-r.1, r.2)
    | .plusPlus :: rest => parsePreIncdec 1 rest st
    | .minusMinus :: rest => parsePreIncdec (-1) rest st
    | ts => parsePrimary (parseAssign room) ts st

end

/-- `MAX_ARITH_DEPTH`. -/
def maxArithDepth : Nat := 64

/-- `eval_arithmetic`: the value and the state after it. -/
def evalArithmetic (x : Expander) (expr : List Char) (s : ShellState) : Int64 × ArithState :=
  let tokens := arithTokenize x (trim expr) (some s)
  if tokens.1 = [] then (0, tokens.2)
  else
    let r := parseExpr (parseAssign maxArithDepth) tokens.1 tokens.2
    (r.1, r.2.2)

end Wasmsh.Arith

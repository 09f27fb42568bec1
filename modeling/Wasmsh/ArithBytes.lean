import Wasmsh.Arithmetic
import Wasmsh.Namerefs

/-!
# The arithmetic tokenizer on bytes

`arith_tokenize` of `wasmsh-expand/src/lib.rs` as it reads the bytes of its input and slices
the input at the places it reaches, and `eval_arithmetic` with it.  A place is given by the
bytes that follow it.  Nothing is returned where the code does not return: at a slice inside
a character, at a radix that the standard library refuses, and where `expand_parameter` or a
write to a variable does not return.
-/

namespace Wasmsh.Arith

open Braces

/-- `expand_parameter`: the writes and the text, or nothing when it does not return. -/
abbrev ParameterExpander := List Char → ShellState → Option (List StateOp × List Char)

namespace Bytes

/-! ## 1. Tokens -/

/-- `i64::from_str_radix`, which panics above radix 36 whatever the digits are. -/
def checkedFromStrRadix (radix : Nat) (digits : List Char) : Option (Option Int) :=
  if radix ≤ 36 then some (fromStrRadix radix digits) else none

/-- The number between two places, and the place after it. -/
def radixNumber (radix : Nat) (start stop : List Char) : Option (Int64 × List Char) :=
  (Utf8.slice start stop).bind fun digits =>
    (checkedFromStrRadix radix digits).map fun value => (orZero value, stop)

/-- `arith_take_radix_number` from the first digit on. -/
def arithTakeRadixNumber (radix : Nat) (pred : Char → Bool) (digitsStart : List Char) :
    Option (Int64 × List Char) :=
  radixNumber radix digitsStart (digitsStart.dropWhile pred)

/-- `arith_tokenize_prefixed_number`. -/
def arithTokenizePrefixedNumber : List Char → Option (Option (Int64 × List Char))
  | '0' :: next :: r =>
    if next = 'x' ∨ next = 'X' then (arithTakeRadixNumber 16 isHexdigit r).map some
    else if next = 'b' ∨ next = 'B' then
      (arithTakeRadixNumber 2 (fun b => b == '0' || b == '1') r).map some
    else if next.isDigit then (arithTakeRadixNumber 8 Char.isDigit (next :: r)).map some
    else some none
  | _ => some none

/-- `arith_tokenize_base_syntax`, with the place before the base and the place after it. -/
def arithTokenizeBaseSyntax (start : List Char) :
    List Char → Option (Option (Int64 × List Char))
  | '#' :: valStart =>
    (Utf8.slice start ('#' :: valStart)).bind fun base =>
      match parseUnsigned 32 (String.ofList base) with
      | some radix =>
        if 2 ≤ radix ∧ radix ≤ 64 then
          (radixNumber radix valStart (valStart.dropWhile isIdentChar)).map some
        else some none
      | none => some none
  | _ => some none

/-- `arith_tokenize_number`. -/
def arithTokenizeNumber (start : List Char) : Option (ArithToken × List Char) :=
  (arithTokenizePrefixedNumber start).bind fun found =>
    match found with
    | some (number, rest) => some (.number number, rest)
    | none =>
      let pos := start.tail.dropWhile Char.isDigit
      (arithTokenizeBaseSyntax start pos).bind fun found =>
        match found with
        | some (number, rest) => some (.number number, rest)
        | none => (Utf8.slice start pos).map fun digits => (.number (orZero (parseI64 digits)), pos)

/-- `arith_tokenize_ident`. -/
def arithTokenizeIdent (start : List Char) : Option (ArithToken × List Char) :=
  let pos := start.tail.dropWhile isIdentChar
  (Utf8.slice start pos).map fun name => (.ident name, pos)

/-- The loop of `arith_tokenize_dollar`: the place of the `}` that closes a `${`, or the end. -/
def closingBrace : Nat → List Char → List Char
  | _, [] => []
  | depth, b :: r =>
    if b = '}' then if depth ≤ 1 then b :: r else closingBrace (depth - 1) r
    else closingBrace (if b = '{' then depth + 1 else depth) r

/-- The value of a parameter as a token. -/
def parameterToken (x : ParameterExpander) (name : List Char) (s : ShellState) :
    Option (ArithToken × ShellState) :=
  (x name s).bind fun out => (s.applyAll out.1).map fun s' =>
    (.number (orZero (parseI64 (trim out.2))), s'.takeNounsetError.2)

/-- `arith_tokenize_dollar` after the `$`. -/
def arithTokenizeDollar (x : ParameterExpander) (pos : List Char) (s : ShellState) :
    Option (Option ArithToken × List Char × ShellState) :=
  let push (name rest : List Char) : Option (Option ArithToken × List Char × ShellState) :=
    (parameterToken x name s).map fun value => (some value.1, rest, value.2)
  match pos with
  | [] => some (some (.number 0), [], s)
  | next :: start =>
    if next = '{' then
      let close := closingBrace 1 start
      (Utf8.slice start close).bind fun name => push name close.tail
    else if next.isDigit then
      let stop := pos.dropWhile Char.isDigit
      (Utf8.slice pos stop).bind fun name => push name stop
    else if next.isAlpha || next == '_' then some (none, pos, s)
    else
      (Utf8.slice pos []).bind fun text =>
        let ch := text.head?.getD '\x00'
        push [ch] (pos.drop (Utf8.encodeChar ch).length)

/-- One turn of the loop of `arith_tokenize`: a token, or none, and the place after it. -/
def arithTokenizeTurn (x : ParameterExpander) (b : Char) (r : List Char) (s : ShellState) :
    Option (Option ArithToken × List Char × ShellState) :=
  if isAsciiWhitespace b then some (none, r, s)
  else if b = '$' then arithTokenizeDollar x r s
  else if b.isDigit then
    (arithTokenizeNumber (b :: r)).map fun found => (some found.1, found.2, s)
  else if b.isAlpha || b == '_' then
    (arithTokenizeIdent (b :: r)).map fun found => (some found.1, found.2, s)
  else
    let found := arithTokenizeOperator b r
    some (found.1, found.2, s)

/-- The loop of `arith_tokenize`, with as many turns as there are bytes. -/
def arithTokenizeLoop (x : ParameterExpander) :
    Nat → List Char → ShellState → Option (List ArithToken × ShellState)
  | 0, _, s => some ([], s)
  | _ + 1, [], s => some ([], s)
  | n + 1, b :: r, s =>
    (arithTokenizeTurn x b r s).bind fun turn =>
      (arithTokenizeLoop x n turn.2.1 turn.2.2).map fun rest =>
        (turn.1.toList ++ rest.1, rest.2)

/-- `arith_tokenize`. -/
def arithTokenize (x : ParameterExpander) (input : List Char) (s : ShellState) :
    Option (List ArithToken × ShellState) :=
  let bytes := Utf8.encode input
  arithTokenizeLoop x bytes.length bytes s

/-- `eval_arithmetic`: the value and the state after it. -/
def evalArithmetic (x : ParameterExpander) (expr : List Char) (s : ShellState) :
    Option (Int64 × ShellState) :=
  (arithTokenize x (trim expr) s).bind fun tokens =>
    if tokens.1 = [] then some (0, tokens.2)
    else
      let r := parseExpr (parseAssign maxArithDepth) tokens.1 (some tokens.2)
      r.2.2.map fun s' => (r.1, s')

end Bytes

end Wasmsh.Arith

import Wasmsh.Ast

/-!
# The lexer

`wasmsh-lex/src/lib.rs`, function by function.  The recursion of the source goes
through `consume_dollar` only: every other scanner takes the scanner for a nested
`$` as an argument, and `consumeDollar` ties the knot, its first argument bounding
the nesting.  `nextToken_ne_outOfFuel` in `Wasmsh.LexerBounds` shows that the bounds
given here, the length of the remaining text, are never met.

`consumeDoubleQuoted` and `consumeDollar` also return the marks of the regions they
read at the level of the word or of its double quotes.  What is nested inside a
substitution is text of that substitution for the word parser, so the scanners of
substitution bodies drop the marks they get.
-/

namespace Wasmsh.Lex

open Scanning DyckStep

/-! ## 1. Tokens and errors -/

inductive LexerMode where
  | normal
  | comment
  deriving DecidableEq, Repr

inductive TokenKind where
  | word (isReservedCandidate : Bool)
  | semi
  | newline
  | pipe
  | andAnd
  | orOr
  | amp
  | pipeAmp
  | less
  | greater
  | greaterGreater
  | greaterPipe
  | lessLess
  | lessLessDash
  | lessLessLess
  | lessGreater
  | ampGreater
  | ampGreaterGreater
  | lParen
  | rParen
  | dblLBracket
  | dblRBracket
  | eof
  deriving DecidableEq, Repr

structure Token where
  kind : TokenKind
  span : Span
  deriving DecidableEq, Repr

/-- `Token::text`: the bytes of the source under the token's span. -/
def Token.text (tok : Token) (source : List Char) : List Char :=
  (source.drop tok.span.start).take (tok.span.stop - tok.span.start)

structure LexerError where
  message : String
  span : Span
  deriving DecidableEq, Repr

/-- Why a scan stops without a result: the source's error, or the bound on the
    recursion of the model. -/
inductive Halt where
  | error (e : LexerError)
  | outOfFuel
  deriving DecidableEq, Repr

abbrev Scan (α : Type) := Except Halt α

/-- A scan that also logs the regions it has read. -/
abbrev MarkedScan := Scan (List Mark × Text)

def reservedWords : List (List Char) :=
  ["if", "then", "else", "elif", "fi", "do", "done", "case", "esac", "while", "until", "for",
    "in", "function", "select", "time", "!", "\x7b", "\x7d", "[[", "]]"].map String.toList

def isReservedWord (s : List Char) : Bool := reservedWords.contains s

/-- `MAX_LEX_DEPTH`. -/
def maxLexDepth : Nat := 48

def spanFrom (c : Text) (start : Nat) : Span := ⟨start, c.pos⟩

/-- The error of a scanner that meets the end of the source. -/
def unterminated (what : String) (start : Nat) (c : Text) : Halt :=
  .error ⟨"unterminated " ++ what, spanFrom c start⟩

/-! ## 2. Quotes and escapes -/

def singleQuotedLoop (start : Nat) : Nat → List Char → Scan Text
  | pos, [] => .error (unterminated "single quote" start ⟨pos, []⟩)
  | pos, '\'' :: r => .ok ⟨pos + 1, r⟩
  | pos, _ :: r => singleQuotedLoop start (pos + 1) r

def consumeSingleQuoted (c : Text) : Scan Text :=
  singleQuotedLoop c.pos (c.pos + 1) (c.rest.drop 1)

def consumeBackslash (c : Text) : Text :=
  match c.rest with
  | _ :: _ :: r => ⟨c.pos + 2, r⟩
  | _ => c.skip 1

def backtickLoop (start : Nat) : Nat → List Char → Scan Text
  | pos, [] => .error (unterminated "backquote" start ⟨pos, []⟩)
  | pos, '`' :: r => .ok ⟨pos + 1, r⟩
  | pos, '\\' :: _ :: r => backtickLoop start (pos + 2) r
  | pos, _ :: r => backtickLoop start (pos + 1) r

def consumeBacktick (c : Text) : Scan Text :=
  backtickLoop c.pos (c.pos + 1) (c.rest.drop 1)

/-- The loop of `consume_double_quoted`; `dollar` scans a `$` inside the quotes. -/
def doubleQuotedLoop (dollar : Text → MarkedScan) (start : Nat) : Nat → Text → MarkedScan
  | 0, _ => .error .outOfFuel
  | n + 1, c =>
    match c.rest with
    | [] => .error (unterminated "double quote" start c)
    | '"' :: _ => .ok ([], c.skip 1)
    | '\\' :: _ => doubleQuotedLoop dollar start n (consumeBackslash c)
    | '$' :: _ => do
        let (marks, c') ← dollar c
        let (more, c'') ← doubleQuotedLoop dollar start n c'
        return (marks ++ more, c'')
    | '`' :: _ => do
        let c' ← consumeBacktick c
        let (more, c'') ← doubleQuotedLoop dollar start n c'
        return (Region.backtick.marks (c.skip 1) c' ++ more, c'')
    | _ => doubleQuotedLoop dollar start n (c.skip 1)

def consumeDoubleQuoted (dollar : Text → MarkedScan) (c : Text) : MarkedScan := do
  let (marks, c') ← doubleQuotedLoop dollar c.pos (c.rest.length + 1) (c.skip 1)
  return (.opened .doubleQuoted (c.pos + 1) :: marks ++ [.closed .doubleQuoted c'.pos], c')

/-! ## 3. Substitutions

The bodies of `$( )`, `${ }`, `<( )` and of an extended pattern are read by loops of
one shape: count one kind of bracket and step over what may hide brackets. -/

/-- What one turn of such a loop reads: a counted bracket or something else. -/
abbrev BodyLexeme := Text → Scan (Option DyckStep × Text)

/-- Step over a scanned piece that counts for nothing. -/
def passOver (s : Scan Text) : Scan (Option DyckStep × Text) := s.map (none, ·)

def consumeBody (lexeme : BodyLexeme) (what : String) (start : Nat) :
    Nat → Nat → Text → Scan Text
  | 0, _, _ => .error .outOfFuel
  | n + 1, depth, c =>
    match c.rest with
    | [] => .error (unterminated what start c)
    | _ :: _ => do
        match ← lexeme c with
        | (some U, c') => consumeBody lexeme what start n (depth + 1) c'
        | (some D, c') =>
          if depth = 1 then return c'
          else consumeBody lexeme what start n (depth - 1) c'
        | (none, c') => consumeBody lexeme what start n depth c'

def commandLexeme (dollar : Text → MarkedScan) : BodyLexeme := fun c =>
  match c.rest with
  | '(' :: _ => .ok (some U, c.skip 1)
  | ')' :: _ => .ok (some D, c.skip 1)
  | '\'' :: _ => passOver (consumeSingleQuoted c)
  | '"' :: _ => passOver ((consumeDoubleQuoted dollar c).map Prod.snd)
  | '\\' :: _ => .ok (none, consumeBackslash c)
  | '$' :: _ => passOver ((dollar c).map Prod.snd)
  | _ => .ok (none, c.skip 1)

/-- Consume until the `)` matching `$(`. -/
def consumeCommandSubst (dollar : Text → MarkedScan) (c : Text) : Scan Text :=
  consumeBody (commandLexeme dollar) "command substitution" (c.pos - 2)
    (c.rest.length + 1) 1 c

def braceLexeme (dollar : Text → MarkedScan) : BodyLexeme := fun c =>
  match c.rest with
  | '{' :: _ => .ok (some U, c.skip 1)
  | '}' :: _ => .ok (some D, c.skip 1)
  | '\'' :: _ => passOver (consumeSingleQuoted c)
  | '"' :: _ => passOver ((consumeDoubleQuoted dollar c).map Prod.snd)
  | '\\' :: _ => .ok (none, consumeBackslash c)
  | _ => .ok (none, c.skip 1)

/-- Consume until the `}` matching the opening one. -/
def consumeBraceParam (dollar : Text → MarkedScan) (c : Text) : Scan Text :=
  consumeBody (braceLexeme dollar) "parameter expansion" (c.pos - 2)
    (c.rest.length + 1) 1 c

def extglobLexeme : BodyLexeme := fun c =>
  match c.rest with
  | '(' :: _ => .ok (some U, c.skip 1)
  | ')' :: _ => .ok (some D, c.skip 1)
  | '\\' :: _ => .ok (none, consumeBackslash c)
  | _ => .ok (none, c.skip 1)

/-- Consume `?(...)` and its like; the cursor is at the operator. -/
def consumeExtglob (c : Text) : Scan Text :=
  consumeBody extglobLexeme "extglob pattern" c.pos (c.rest.length + 1) 1 (c.skip 2)

/-- `consume_arithmetic_close_paren`: a `)` inside `$(( ))`.  The flag is the source's
    return value, true when the outermost `))` has been consumed. -/
def consumeArithmeticCloseParen (parenDepth dblDepth : Nat) (c : Text) :
    Bool × Nat × Nat × Text :=
  if 0 < parenDepth then
    (false, parenDepth - 1, dblDepth, c.skip 1)
  else if (c.rest.drop 1).head? = some ')' then
    (dblDepth - 1 = 0, parenDepth, dblDepth - 1, c.skip 2)
  else
    (false, parenDepth, dblDepth, c.skip 1)

def arithmeticLoop (dollar : Text → MarkedScan) (start : Nat) :
    Nat → Nat → Nat → Text → Scan Text
  | 0, _, _, _ => .error .outOfFuel
  | n + 1, parenDepth, dblDepth, c =>
    match c.rest with
    | [] => .error (unterminated "arithmetic expansion" start c)
    | '(' :: '(' :: _ => arithmeticLoop dollar start n parenDepth (dblDepth + 1) (c.skip 2)
    | '(' :: _ => arithmeticLoop dollar start n (parenDepth + 1) dblDepth (c.skip 1)
    | ')' :: _ =>
      match consumeArithmeticCloseParen parenDepth dblDepth c with
      | (true, _, _, c') => .ok c'
      | (false, parenDepth', dblDepth', c') =>
        arithmeticLoop dollar start n parenDepth' dblDepth' c'
    | '\'' :: _ => do arithmeticLoop dollar start n parenDepth dblDepth (← consumeSingleQuoted c)
    | '"' :: _ => do
        let (_, c') ← consumeDoubleQuoted dollar c
        arithmeticLoop dollar start n parenDepth dblDepth c'
    | '\\' :: _ => arithmeticLoop dollar start n parenDepth dblDepth (consumeBackslash c)
    | '$' :: _ => do
        let (_, c') ← dollar c
        arithmeticLoop dollar start n parenDepth dblDepth c'
    | _ => arithmeticLoop dollar start n parenDepth dblDepth (c.skip 1)

/-- Consume until the `))` matching `$((`. -/
def consumeArithmetic (dollar : Text → MarkedScan) (c : Text) : Scan Text :=
  arithmeticLoop dollar (c.pos - 3) (c.rest.length + 1) 0 1 c

/-! ## 4. The dollar -/

def consumeIdentifier (c : Text) : Text := c.skip (c.rest.takeWhile isNameByte).length

/-- `consume_dollar_paren`, the cursor at `(`.  `enter_subst` refuses a nesting past
    `maxLexDepth`; the depth is an argument here because `exit_subst` puts it back on
    every path. -/
def consumeDollarParen (dollar : Nat → Text → MarkedScan) (depth : Nat) (c : Text) :
    MarkedScan :=
  let c := c.skip 1
  if maxLexDepth ≤ depth then
    .error (.error ⟨"maximum substitution nesting depth (48) exceeded", spanFrom c c.pos⟩)
  else if c.rest.head? = some '(' then do
    let c := c.skip 1
    let c' ← consumeArithmetic (dollar (depth + 1)) c
    return (Region.arithmetic.marks c c', c')
  else do
    let c' ← consumeCommandSubst (dollar (depth + 1)) c
    return (Region.command.marks c c', c')

/-- The body of `consume_dollar`, the cursor at `$`. -/
def consumeDollarBody (dollar : Nat → Text → MarkedScan) (depth : Nat) (c : Text) :
    MarkedScan :=
  let c := c.skip 1
  match c.rest with
  | '\'' :: _ => do
      let c' ← consumeSingleQuoted c
      return (Region.singleQuoted.marks (c.skip 1) c', c')
  | '(' :: _ => consumeDollarParen dollar depth c
  | '{' :: _ => do
      let c := c.skip 1
      let c' ← consumeBraceParam (dollar depth) c
      return (Region.brace.marks c c', c')
  | b :: _ =>
    if isNameStart b then .ok ([], consumeIdentifier c)
    else if isSpecialParam b then .ok ([], c.skip 1)
    else .ok ([], c)
  | [] => .ok ([], c)

/-- `consume_dollar`; the first argument bounds the nesting of calls, the second is
    `subst_depth`. -/
def consumeDollar : Nat → Nat → Text → MarkedScan
  | 0, _, _ => .error .outOfFuel
  | n + 1, depth, c => consumeDollarBody (consumeDollar n) depth c

/-- `consume_dollar` as the word reader calls it. -/
def dollarAt (depth : Nat) (c : Text) : MarkedScan := consumeDollar (c.rest.length + 1) depth c

/-! ## 5. Words -/

/-- `is_word_break`.  `#` is absent on purpose: it starts a comment only at the
    beginning of a word. -/
def isWordBreak (b : Char) : Bool :=
  [' ', '\t', '\n', ';', '&', '|', '<', '>', '(', ')'].contains b

def isExtglobOperator (b : Char) : Bool := ['?', '*', '+', '@', '!'].contains b

/-- `consume_word_dollar`: `$"` is locale quoting, except before a `(`. -/
def consumeWordDollar (depth : Nat) (c : Text) : MarkedScan :=
  if (c.rest.drop 1).head? = some '"' ∧ (c.rest.drop 2).head? ≠ some '(' then
    consumeDoubleQuoted (dollarAt depth) (c.skip 1)
  else
    dollarAt depth c

def consumeWordPlain (c : Text) : Scan Text :=
  match c.rest with
  | b :: '(' :: _ => if isExtglobOperator b then consumeExtglob c else .ok (c.skip 1)
  | _ => .ok (c.skip 1)

def readWordPart (depth : Nat) (c : Text) : MarkedScan :=
  match c.rest with
  | '\'' :: _ => do
      let c' ← consumeSingleQuoted c
      return (Region.singleQuoted.marks (c.skip 1) c', c')
  | '"' :: _ => consumeDoubleQuoted (dollarAt depth) c
  | '`' :: _ => do
      let c' ← consumeBacktick c
      return (Region.backtick.marks (c.skip 1) c', c')
  | '\\' :: _ => .ok ([], consumeBackslash c)
  | '$' :: _ => consumeWordDollar depth c
  | _ => do return ([], ← consumeWordPlain c)

/-- The loop of `read_word`. -/
def readWordLoop (depth : Nat) : Nat → Text → MarkedScan
  | 0, _ => .error .outOfFuel
  | n + 1, c =>
    match c.rest with
    | [] => .ok ([], c)
    | b :: _ =>
      if isWordBreak b then .ok ([], c)
      else do
        let (marks, c') ← readWordPart depth c
        let (more, c'') ← readWordLoop depth n c'
        return (marks ++ more, c'')

/-- `plain_word_token_kind`. -/
def plainWordTokenKind (text : List Char) (isPlain : Bool) : Option TokenKind :=
  if !isPlain then none
  else if text = ['[', '['] then some .dblLBracket
  else if text = [']', ']'] then some .dblRBracket
  else none

/-- `make_word_token` for the bytes between two cursors. -/
def makeWordToken (c c' : Text) : Token :=
  let text := c.slice c'
  let isPlain := !text.contains '\'' && !text.contains '"' && !text.contains '\\'
    && !text.contains '$'
  { kind := (plainWordTokenKind text isPlain).getD (.word (isPlain && isReservedWord text)),
    span := spanFrom c' c.pos }

/-- `consume_process_subst`: `<(...)` or `>(...)` as a word of its own. -/
def consumeProcessSubst (depth : Nat) (c : Text) : MarkedScan := do
  let inside := c.skip 2
  let c' ← consumeBody (commandLexeme (dollarAt depth)) "process substitution" c.pos
    (c.rest.length + 1) 1 inside
  return (Region.process.marks inside c', c')

/-! ## 6. Tokens -/

/-- The lexer's fields. -/
structure Lexer where
  source : List Char
  pos : Nat
  mode : LexerMode
  substDepth : Nat
  deriving DecidableEq, Repr

namespace Lexer

/-- `Lexer::new`. -/
def new (source : List Char) : Lexer := ⟨source, 0, .normal, 0⟩

/-- The source from the lexer's position on. -/
def cursor (lx : Lexer) : Text := ⟨lx.pos, lx.source.drop lx.pos⟩

def moveTo (lx : Lexer) (c : Text) : Lexer := { lx with pos := c.pos }

end Lexer

/-- What `next_token` yields: the token, the marks of the regions in it, and the
    lexer after it. -/
structure Lexed where
  token : Token
  marks : List Mark
  lexer : Lexer
  deriving DecidableEq, Repr

def skipBlanksLoop : Nat → List Char → Text
  | pos, ' ' :: r => skipBlanksLoop (pos + 1) r
  | pos, '\t' :: r => skipBlanksLoop (pos + 1) r
  | pos, '\\' :: '\n' :: r => skipBlanksLoop (pos + 2) r
  | pos, '\\' :: '\r' :: '\n' :: r => skipBlanksLoop (pos + 3) r
  | pos, r => ⟨pos, r⟩

def skipBlanks (c : Text) : Text := skipBlanksLoop c.pos c.rest

def consumeComment (c : Text) : Text := c.skip (c.rest.takeWhile (· != '\n')).length

/-- `single_op`, `double_op` and `triple_op`: an operator of `n` bytes. -/
def operator (n : Nat) (kind : TokenKind) (lx : Lexer) (c : Text) : Lexed :=
  ⟨⟨kind, spanFrom (c.skip n) c.pos⟩, [], lx.moveTo (c.skip n)⟩

def ampToken (lx : Lexer) (c : Text) : Lexed :=
  match c.rest with
  | _ :: '&' :: _ => operator 2 .andAnd lx c
  | _ :: '>' :: '>' :: _ => operator 3 .ampGreaterGreater lx c
  | _ :: '>' :: _ => operator 2 .ampGreater lx c
  | _ => operator 1 .amp lx c

def pipeToken (lx : Lexer) (c : Text) : Lexed :=
  match c.rest with
  | _ :: '|' :: _ => operator 2 .orOr lx c
  | _ :: '&' :: _ => operator 2 .pipeAmp lx c
  | _ => operator 1 .pipe lx c

/-- The word token of a process substitution. -/
def processSubstToken (lx : Lexer) (c : Text) : Scan Lexed := do
  let (marks, c') ← consumeProcessSubst lx.substDepth c
  return ⟨⟨.word false, spanFrom c' c.pos⟩, marks, lx.moveTo c'⟩

def greaterToken (lx : Lexer) (c : Text) : Scan Lexed :=
  match c.rest with
  | _ :: '(' :: _ => processSubstToken lx c
  | _ :: '>' :: _ => .ok (operator 2 .greaterGreater lx c)
  | _ :: '|' :: _ => .ok (operator 2 .greaterPipe lx c)
  | _ => .ok (operator 1 .greater lx c)

def lessToken (lx : Lexer) (c : Text) : Scan Lexed :=
  match c.rest with
  | _ :: '(' :: _ => processSubstToken lx c
  | _ :: '<' :: '<' :: _ => .ok (operator 3 .lessLessLess lx c)
  | _ :: '<' :: '-' :: _ => .ok (operator 3 .lessLessDash lx c)
  | _ :: '<' :: _ => .ok (operator 2 .lessLess lx c)
  | _ :: '>' :: _ => .ok (operator 2 .lessGreater lx c)
  | _ => .ok (operator 1 .less lx c)

def readWord (lx : Lexer) (c : Text) : Scan Lexed := do
  let (marks, c') ← readWordLoop lx.substDepth (c.rest.length + 1) c
  return ⟨makeWordToken c c', marks, lx.moveTo c'⟩

/-- `next_normal_token`; a comment sends it back to itself, at most once. -/
def nextNormalToken : Nat → Lexer → Scan Lexed
  | 0, _ => .error .outOfFuel
  | n + 1, lx =>
    let c := skipBlanks lx.cursor
    match c.rest with
    | [] => .ok ⟨⟨.eof, spanFrom c c.pos⟩, [], lx.moveTo c⟩
    | '\n' :: _ => .ok (operator 1 .newline lx c)
    | ';' :: _ => .ok (operator 1 .semi lx c)
    | '(' :: _ => .ok (operator 1 .lParen lx c)
    | ')' :: _ => .ok (operator 1 .rParen lx c)
    | '#' :: _ => nextNormalToken n (lx.moveTo (consumeComment c))
    | '&' :: _ => .ok (ampToken lx c)
    | '|' :: _ => .ok (pipeToken lx c)
    | '>' :: _ => greaterToken lx c
    | '<' :: _ => lessToken lx c
    | _ => readWord lx c

/-- `Lexer::next_token`. -/
def nextToken (lx : Lexer) : Scan Lexed :=
  match lx.mode with
  | .comment => nextNormalToken 2 { lx.moveTo (consumeComment lx.cursor) with mode := .normal }
  | .normal => nextNormalToken 2 lx

end Wasmsh.Lex

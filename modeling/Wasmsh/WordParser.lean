import Wasmsh.Ast
import Wasmsh.Library.Utf8

/-!
# The word parser

`wasmsh-parse/src/word_parser.rs`: the text of a word token is split into parts.
Every function keeps the source's result and adds the marks of the regions it
reads.  A region that runs into the end of the text is opened and never closed;
the source then takes all that is left as the region's content.

The literal buffer `lit` of the source is an argument and a result, a cursor stands
for `(text, pos)`, and the loops carry a bound on their number of turns, the length
of the remaining text; every turn consumes at least one byte
(`parseWordPart_consumes` in `Wasmsh.WordMarks`).
-/

namespace Wasmsh.WordParser

open Scanning DyckStep

/-- `flush`: the pending literal as a part, if there is one. -/
def flush (lit : List Char) : List WordPart := if lit = [] then [] else [.literal lit]

/-- The content of a region, the cursor after it, and whether its end was found. -/
structure Body (β : Type) where
  content : β
  next : Text
  closed : Bool
  deriving Repr

/-- The marks of a region whose content starts at `c`, with those inside it. -/
def Body.marks {β : Type} (k : Region) (c : Text) (inside : List Mark) (b : Body β) :
    List Mark :=
  .opened k c.pos :: inside ++ (if b.closed then [.closed k b.next.pos] else [])

/-! ## 1. Quoted text -/

/-- The inner loop of `parse_backtick_part`: a backslash is dropped before a backtick,
    a `$` or a backslash. -/
def backtickLoop (inner : List Char) : Nat → List Char → Body (List Char)
  | pos, [] => ⟨inner, ⟨pos, []⟩, false⟩
  | pos, '`' :: r => ⟨inner, ⟨pos + 1, r⟩, true⟩
  | pos, '\\' :: '`' :: r => backtickLoop (inner ++ ['`']) (pos + 2) r
  | pos, '\\' :: '$' :: r => backtickLoop (inner ++ ['$']) (pos + 2) r
  | pos, '\\' :: '\\' :: r => backtickLoop (inner ++ ['\\']) (pos + 2) r
  | pos, b :: r => backtickLoop (inner ++ [b]) (pos + 1) r

/-- The rest of a backtick region, the cursor after the opening backtick.  Its bytes are
    taken for characters, which the part holds encoded. -/
def parseBacktick (c : Text) : Body (List Char) := backtickLoop [] c.pos c.rest

/-- Up to the next single quote, the cursor after the opening one. -/
def parseSingleQuoted (c : Text) : Body (List Char) :=
  let inner := c.rest.takeWhile (· != '\'')
  match c.rest.drop inner.length with
  | [] => ⟨inner, c.atEnd, false⟩
  | _ :: _ => ⟨inner, c.skip (inner.length + 1), true⟩

/-- `parse_octal_digits`; the value is a `u8`. -/
def parseOctalDigits : Nat → Nat → Text → Nat × Text
  | 0, val, c => (val, c)
  | n + 1, val, c =>
    match c.rest with
    | b :: _ =>
      if '0' ≤ b ∧ b ≤ '7' then
        parseOctalDigits n ((val * 8 + (b.toNat - '0'.toNat)) % 256) (c.skip 1)
      else (val, c)
    | [] => (val, c)

def hexDigit (b : Char) : Option Nat :=
  if '0' ≤ b ∧ b ≤ '9' then some (b.toNat - '0'.toNat)
  else if 'a' ≤ b ∧ b ≤ 'f' then some (b.toNat - 'a'.toNat + 10)
  else if 'A' ≤ b ∧ b ≤ 'F' then some (b.toNat - 'A'.toNat + 10)
  else none

/-- `parse_hex_digits`. -/
def parseHexDigits : Nat → Nat → Text → Nat × Text
  | 0, val, c => (val, c)
  | n + 1, val, c =>
    match c.rest.head?.bind hexDigit with
    | some digit => parseHexDigits n ((val * 16 + digit) % 256) (c.skip 1)
    | none => (val, c)

/-- `ansi_c_escape`, the cursor after the backslash: the bytes it stands for. -/
def ansiCEscape (c : Text) : List Char × Text :=
  match c.rest with
  | 'n' :: _ => (['\n'], c.skip 1)
  | 't' :: _ => (['\t'], c.skip 1)
  | 'r' :: _ => (['\r'], c.skip 1)
  | 'a' :: _ => (['\x07'], c.skip 1)
  | 'b' :: _ => (['\x08'], c.skip 1)
  | 'e' :: _ => (['\x1b'], c.skip 1)
  | 'E' :: _ => (['\x1b'], c.skip 1)
  | 'f' :: _ => (['\x0c'], c.skip 1)
  | 'v' :: _ => (['\x0b'], c.skip 1)
  | '\\' :: _ => (['\\'], c.skip 1)
  | '\'' :: _ => (['\''], c.skip 1)
  | '"' :: _ => (['"'], c.skip 1)
  | 'x' :: _ =>
    let (val, c') := parseHexDigits 2 0 (c.skip 1)
    ([Char.ofNat val], c')
  | b :: _ =>
    if '0' ≤ b ∧ b ≤ '7' then
      let (val, c') := parseOctalDigits 3 0 c
      ([Char.ofNat val], c')
    else (['\\', b], c.skip 1)
  | [] => ([], c)

/-- The loop of `parse_ansi_c_quoted`. -/
def ansiCLoop (result : List Char) : Nat → Text → Body (List Char)
  | 0, c => ⟨result, c, false⟩
  | n + 1, c =>
    match c.rest with
    | [] => ⟨result, c, false⟩
    | '\'' :: _ => ⟨result, c.skip 1, true⟩
    | '\\' :: _ =>
      let (bytes, c') := ansiCEscape (c.skip 1)
      ansiCLoop (result ++ bytes) n c'
    | b :: _ => ansiCLoop (result ++ [b]) n (c.skip 1)

/-- `parse_ansi_c_quoted`, the cursor after `$'`. -/
def parseAnsiCQuoted (c : Text) : Body (List Char) := ansiCLoop [] c.rest.length c

/-! ## 2. Substitutions -/

/-- `skip_single_quoted`, the cursor at the opening quote. -/
def skipSingleQuoted (c : Text) : Text := (parseSingleQuoted (c.skip 1)).next

def skipDoubleQuotedLoop : Nat → List Char → Text
  | pos, [] => ⟨pos, []⟩
  | pos, '"' :: r => ⟨pos + 1, r⟩
  | pos, '\\' :: _ :: r => skipDoubleQuotedLoop (pos + 2) r
  | pos, _ :: r => skipDoubleQuotedLoop (pos + 1) r

/-- `skip_double_quoted`, the cursor at the opening quote. -/
def skipDoubleQuoted (c : Text) : Text := skipDoubleQuotedLoop (c.pos + 1) (c.rest.drop 1)

/-- The loop shared by the substitutions: up to the closing lexeme, or all that is
    left. -/
def parseBody (lexeme : Lexeme Char) (c : Text) : Body (List Char) :=
  match findClose lexeme c.rest.length 1 c with
  | some (k, c') => ⟨c.slice k, c', true⟩
  | none => ⟨c.rest, c.atEnd, false⟩

/-- One turn of `parse_dollar_arith`: only `((` and `))` count. -/
def arithLexeme : Lexeme Char := fun c =>
  match c.rest with
  | '(' :: '(' :: _ => (some U, c.skip 2)
  | ')' :: ')' :: _ => (some D, c.skip 2)
  | _ => (none, c.skip 1)

/-- One turn of `parse_dollar_cmd_subst` and of `parse_process_subst`. -/
def cmdSubstLexeme : Lexeme Char := fun c =>
  match c.rest with
  | '(' :: _ => (some U, c.skip 1)
  | ')' :: _ => (some D, c.skip 1)
  | '\'' :: _ => (none, skipSingleQuoted c)
  | '"' :: _ => (none, skipDoubleQuoted c)
  | _ => (none, c.skip 1)

/-- One turn of `parse_dollar_brace`. -/
def braceLexeme : Lexeme Char := fun c =>
  match c.rest with
  | '{' :: _ => (some U, c.skip 1)
  | '}' :: _ => (some D, c.skip 1)
  | '\\' :: _ :: r => (none, ⟨c.pos + 2, r⟩)
  | _ => (none, c.skip 1)

/-- A part with its marks and the cursor after it. -/
structure Part where
  part : WordPart
  marks : List Mark
  next : Text
  deriving Repr

def parseDollarArith (c : Text) : Part :=
  let c := c.skip 1
  let b := parseBody arithLexeme c
  ⟨.arithmetic b.content, b.marks .arithmetic c [], b.next⟩

def parseDollarCmdSubst (c : Text) : Part :=
  let b := parseBody cmdSubstLexeme c
  ⟨.commandSubstitution b.content, b.marks .command c [], b.next⟩

def parseDollarBrace (c : Text) : Part :=
  let c := c.skip 1
  let b := parseBody braceLexeme c
  ⟨.parameter b.content, b.marks .brace c [], b.next⟩

def parseDollarParen (c : Text) : Part :=
  let c := c.skip 1
  if c.rest.head? = some '(' then parseDollarArith c else parseDollarCmdSubst c

def parseNamedParameter (c : Text) : Part :=
  let name := c.rest.takeWhile isNameByte
  ⟨.parameter name, [], c.skip name.length⟩

def parseSpecialParameter (c : Text) : Part :=
  ⟨.parameter (c.rest.take 1), [], c.skip 1⟩

/-- `parse_dollar`, the cursor after the `$`; `none` for a lone `$`. -/
def parseDollar (c : Text) : Option Part :=
  match c.rest with
  | [] => none
  | '(' :: _ => some (parseDollarParen c)
  | '{' :: _ => some (parseDollarBrace c)
  | b :: _ =>
    if isNameStart b then some (parseNamedParameter c)
    else if isSpecialParam b then some (parseSpecialParameter c)
    else none

/-! ## 3. Double quotes -/

/-- `dq_backslash`: inside double quotes a backslash escapes `$`, backtick, `"`, `\`
    and the newline only. -/
def dqBackslash (lit : List Char) (c : Text) : List Char × Text :=
  match c.rest with
  | _ :: '\n' :: r => (lit, ⟨c.pos + 2, r⟩)
  | _ :: b :: r =>
    if ['$', '`', '"', '\\'].contains b then (lit ++ [b], ⟨c.pos + 2, r⟩)
    else (lit ++ ['\\', b], ⟨c.pos + 2, r⟩)
  | _ => (lit, c.skip 1)

/-- The parts inside double quotes and the marks of the regions among them. -/
structure Quoted where
  parts : List WordPart
  marks : List Mark
  deriving Repr

def Body.prepend (parts : List WordPart) (marks : List Mark) (b : Body Quoted) : Body Quoted :=
  { b with content := ⟨parts ++ b.content.parts, marks ++ b.content.marks⟩ }

/-- The loop of `parse_double_quoted`. -/
def doubleQuotedLoop : Nat → List Char → Text → Body Quoted
  | 0, lit, c => ⟨⟨flush lit, []⟩, c, false⟩
  | n + 1, lit, c =>
    match c.rest with
    | [] => ⟨⟨flush lit, []⟩, c, false⟩
    | '"' :: _ => ⟨⟨flush lit, []⟩, c.skip 1, true⟩
    | '\\' :: _ =>
      let (lit', c') := dqBackslash lit c
      doubleQuotedLoop n lit' c'
    | '$' :: _ =>
      match parseDollar (c.skip 1) with
      | some p => .prepend (flush lit ++ [p.part]) p.marks (doubleQuotedLoop n [] p.next)
      | none => .prepend (flush lit) [] (doubleQuotedLoop n ['$'] (c.skip 1))
    | '`' :: _ =>
      let c' := c.skip 1
      let b := parseBacktick c'
      .prepend (flush lit ++ [.commandSubstitution (Utf8.encode b.content)])
        (b.marks .backtick c' [])
        (doubleQuotedLoop n [] b.next)
    | b :: _ => doubleQuotedLoop n (lit ++ [b]) (c.skip 1)

/-- `parse_double_quoted`, the cursor after the opening quote. -/
def parseDoubleQuoted (c : Text) : Body Quoted := doubleQuotedLoop c.rest.length [] c

/-! ## 4. Words -/

/-- The effect of one `parse_word_part`: the literal buffer after it, the parts it
    pushes, its marks, and the cursor. -/
structure Step where
  lit : List Char
  parts : List WordPart
  marks : List Mark
  next : Text
  deriving Repr

def parseBacktickPart (lit : List Char) (c : Text) : Step :=
  let c := c.skip 1
  let b := parseBacktick c
  ⟨[], flush lit ++ [.commandSubstitution (Utf8.encode b.content)], b.marks .backtick c [], b.next⟩

def parseSingleQuotedPart (lit : List Char) (c : Text) : Step :=
  let c := c.skip 1
  let b := parseSingleQuoted c
  ⟨[], flush lit ++ [.singleQuoted b.content], b.marks .singleQuoted c [], b.next⟩

/-- A double-quoted string whose content starts at `c`. -/
def doubleQuotedStep (lit : List Char) (c : Text) : Step :=
  let b := parseDoubleQuoted c
  ⟨[], flush lit ++ [.doubleQuoted b.content.parts], b.marks .doubleQuoted c b.content.marks,
    b.next⟩

def parseDoubleQuotedPart (lit : List Char) (c : Text) : Step := doubleQuotedStep lit (c.skip 1)

/-- `parse_escaped_literal`: an escaped newline disappears. -/
def parseEscapedLiteral (lit : List Char) (c : Text) : Step :=
  match c.rest with
  | _ :: '\n' :: r => ⟨lit, [], [], ⟨c.pos + 2, r⟩⟩
  | _ :: b :: r => ⟨lit ++ [b], [], [], ⟨c.pos + 2, r⟩⟩
  | _ => ⟨lit, [], [], c.skip 1⟩

def parseDollarPart (lit : List Char) (c : Text) : Step :=
  match c.rest with
  | _ :: '\'' :: _ =>
    let c := c.skip 2
    let b := parseAnsiCQuoted c
    ⟨[], flush lit ++ [.literal b.content], b.marks .singleQuoted c [], b.next⟩
  | _ :: '"' :: _ => doubleQuotedStep lit (c.skip 2)
  | _ =>
    match parseDollar (c.skip 1) with
    | some p => ⟨[], flush lit ++ [p.part], p.marks, p.next⟩
    | none => ⟨['$'], flush lit, [], c.skip 1⟩

/-- `parse_process_subst`, the cursor at `<` or `>`. -/
def parseProcessSubst (lit : List Char) (c : Text) : Step :=
  let isInput := c.rest.head? = some '<'
  let c := c.skip 2
  let b := parseBody cmdSubstLexeme c
  ⟨[], flush lit ++ [if isInput then .processSubstIn b.content else .processSubstOut b.content],
    b.marks .process c [], b.next⟩

def parseWordPart (lit : List Char) (c : Text) : Step :=
  match c.rest with
  | '\'' :: _ => parseSingleQuotedPart lit c
  | '"' :: _ => parseDoubleQuotedPart lit c
  | '\\' :: _ => parseEscapedLiteral lit c
  | '$' :: _ => parseDollarPart lit c
  | '`' :: _ => parseBacktickPart lit c
  | '<' :: '(' :: _ => parseProcessSubst lit c
  | '>' :: '(' :: _ => parseProcessSubst lit c
  | b :: _ => ⟨lit ++ [b], [], [], c.skip 1⟩
  | [] => ⟨lit, [], [], c⟩

/-- The loop of `parse_word_parts`. -/
def parseWordLoop : Nat → List Char → Text → Quoted
  | 0, lit, _ => ⟨flush lit, []⟩
  | n + 1, lit, c =>
    match c.rest with
    | [] => ⟨flush lit, []⟩
    | _ :: _ =>
      let s := parseWordPart lit c
      let more := parseWordLoop n s.lit s.next
      ⟨s.parts ++ more.parts, s.marks ++ more.marks⟩

/-- `parse_word_parts` on a text that starts at offset `base` of its source. -/
def parseWordParts (base : Nat) (text : List Char) : Quoted :=
  parseWordLoop text.length [] ⟨base, text⟩

end Wasmsh.WordParser

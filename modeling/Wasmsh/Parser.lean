import Wasmsh.Library.Utf8
import Wasmsh.Lexer
import Wasmsh.WordParser
import Wasmsh.Hir

/-!
# The parser

`wasmsh-parse/src/lib.rs`, with the lowering of `wasmsh-hir/src/lower.rs`: the tree is
built in its lowered form.  The parser reads tokens one ahead and may look at two more.
A compound command re-enters `parse_command`; each function here takes that parser as an
argument, and `parseCommand` ties the knot, its first argument bounding the nesting, which
the source bounds itself.

The source text is its bytes.  A slice of it that becomes a text is decoded; the word
parser moves the bytes of literal text into the tree one by one, each as a character of
its own.
-/

open Wasmsh.Lex

namespace Wasmsh.Parser

open Hir

/-! ## 1. State -/

structure ParseError where
  message : String
  offset : Nat
  deriving DecidableEq, Repr

/-- `PendingHereDoc`. -/
structure PendingHereDoc where
  delimiter : List Char
  stripTabs : Bool
  expandBody : Bool
  deriving DecidableEq, Repr

/-- The fields of `Parser`. -/
structure State where
  source : List Char
  lexer : Lexer
  current : Token
  peeked : List Token
  prevEnd : Nat
  pendingHeredocs : List PendingHereDoc
  nestingDepth : Nat
  deriving DecidableEq, Repr

abbrev Parse (α : Type) := StateT State (Except ParseError) α

/-- A text that is read out of the source. -/
def textOf (bytes : List Char) : String := String.ofList (Utf8.decode bytes)

/-- `lex_err`, and where the lexer stands after the error. -/
def lexErr (lx : Lexer) : Lex.Halt → ParseError × Lexer
  | .error e => (⟨e.message, e.span.start⟩, { lx with pos := e.span.stop })
  | .outOfFuel => (⟨"", lx.pos⟩, lx)

def fail {α : Type} (message : String) (offset : Nat) : Parse α := fun _ =>
  .error ⟨message, offset⟩

/-- An error at the current token. -/
def failHere {α : Type} (message : String) : Parse α := fun p =>
  .error ⟨message, p.current.span.start⟩

/-- `advance`: the token that was current. -/
def advance : Parse Token := fun p =>
  let moved := { p with prevEnd := p.current.span.stop }
  match p.peeked with
  | tok :: toks => .ok (p.current, { moved with current := tok, peeked := toks })
  | [] =>
    match nextToken p.lexer with
    | .ok l => .ok (p.current, { moved with current := l.token, lexer := l.lexer })
    | .error e => .error (lexErr p.lexer e).1

/-- Read `k` more tokens ahead; the error of the lexer, if it stops. -/
def readAhead : Nat → State → State × Option ParseError
  | 0, p => (p, none)
  | k + 1, p =>
    match nextToken p.lexer with
    | .ok l => readAhead k { p with lexer := l.lexer, peeked := p.peeked ++ [l.token] }
    | .error e => ({ p with lexer := (lexErr p.lexer e).2 }, some (lexErr p.lexer e).1)

/-- `peek_nth`. -/
def peekNth (n : Nat) : Parse Token := fun p =>
  match readAhead (n + 1 - p.peeked.length) p with
  | (_, some e) => .error e
  | (p, none) => .ok (p.peeked.getD n p.current, p)

/-- `peek_nth` where its error counts for no token. -/
def tryPeekNth (n : Nat) : Parse (Option Token) := fun p =>
  match readAhead (n + 1 - p.peeked.length) p with
  | (p, some _) => .ok (none, p)
  | (p, none) => .ok (p.peeked[n]?, p)

namespace State

def atKind (p : State) (kind : TokenKind) : Bool := p.current.kind = kind

def currentText (p : State) : List Char := p.current.text p.source

end State

def isWord : TokenKind → Bool
  | .word _ => true
  | _ => false

namespace State

def atWord (p : State) : Bool := isWord p.current.kind

def atWordEq (p : State) (text : String) : Bool := p.atWord && p.currentText == text.toList

/-- `at_redirection`. -/
def atRedirection (p : State) : Bool :=
  [TokenKind.less, .greater, .greaterGreater, .greaterPipe, .lessLess, .lessLessDash,
    .lessLessLess, .lessGreater, .ampGreater, .ampGreaterGreater].contains p.current.kind

end State

/-- The operators that a digit may stand before. -/
def fdOperators : List TokenKind :=
  [.less, .greater, .greaterGreater, .greaterPipe, .lessLess, .lessLessDash, .lessLessLess,
    .lessGreater]

/-- `TERMINATOR_WORDS`. -/
def terminatorWords : List (List Char) :=
  ["then", "elif", "else", "fi", "do", "done", "esac", "\x7d"].map String.toList

/-- `at_command_start`. -/
def State.atCommandStart (p : State) : Bool :=
  if p.atKind .lParen || p.atKind .dblLBracket then true
  else if p.atWord then !terminatorWords.contains p.currentText
  else p.atRedirection

/-- The next token is of the kind. -/
def nextIs (kind : TokenKind) : Parse Bool := do
  return (← tryPeekNth 0).any (·.kind = kind)

/-- `at_fd_prefix_redirection`. -/
def atFdPrefixRedirection : Parse Bool := do
  let p ← get
  match p.atWord, p.currentText with
  | true, [d] =>
    if d.isDigit then return (← tryPeekNth 0).any (fdOperators.contains ·.kind) else return false
  | _, _ => return false

/-- `peek_is_lparen`. -/
def peekIsLparen : Parse Bool := nextIs .lParen

/-- `is_double_semi`. -/
def isDoubleSemi : Parse Bool := do
  if (← get).atKind .semi then nextIs .semi else return false

/-- `is_case_fallthrough`. -/
def isCaseFallthrough : Parse Bool := do
  if (← get).atKind .semi then nextIs .amp else return false

/-- `is_case_continue_testing`. -/
def isCaseContinueTesting : Parse Bool := do
  if (← isDoubleSemi) then return (← tryPeekNth 1).any (·.kind = .amp) else return false

/-- A loop that collects until a turn gives nothing; the first argument bounds the number
    of turns, each of which takes a token. -/
def collect {α : Type} (turn : Parse (Option α)) : Nat → Parse (List α)
  | 0 => failHere ""
  | n + 1 => do
    match ← turn with
    | none => return []
    | some a => return a :: (← collect turn n)

/-- The same, bounded by the length of the source. -/
def many {α : Type} (turn : Parse (Option α)) : Parse (List α) := do
  collect turn ((← get).source.length + 2)

/-- `skip_newlines`. -/
def skipNewlines : Parse Unit := do
  let _ ← many (do if (← get).atKind .newline then return some (← advance) else return none)

/-- `expect_word`. -/
def expectWord (expected : String) : Parse Unit := do
  let p ← get
  if p.atWordEq expected then let _ ← advance
  else failHere ("expected '" ++ expected ++ "', got '" ++ textOf p.currentText ++ "'")

/-! ## 2. Words, assignments and redirections -/

mutual

/-- A part of a word with its slices of the source decoded; literal text is left as the
    word parser has built it, and so is the text of backticks, which it has encoded. -/
def decodePart : WordPart → WordPart
  | .literal t => .literal t
  | .singleQuoted t => .singleQuoted (Utf8.decode t)
  | .doubleQuoted ps => .doubleQuoted (decodeParts ps)
  | .parameter t => .parameter (Utf8.decode t)
  | .commandSubstitution t => .commandSubstitution (Utf8.decode t)
  | .arithmetic t => .arithmetic (Utf8.decode t)
  | .processSubstIn t => .processSubstIn (Utf8.decode t)
  | .processSubstOut t => .processSubstOut (Utf8.decode t)

def decodeParts : List WordPart → List WordPart
  | [] => []
  | p :: ps => decodePart p :: decodeParts ps

end

/-- `parse_word_parts` on a text of the source. -/
def wordOf (text : List Char) : Word := ⟨decodeParts (WordParser.parseWordParts 0 text).parts⟩

/-- `parse_word`, and where the word stands. -/
def parseWord : Parse (Word × Span) := do
  let tok ← advance
  return (wordOf (tok.text (← get).source), tok.span)

/-- The rest of a process substitution written with a blank, up to its `)`; `depth`
    counts the open parentheses. -/
def skipParens (start : Nat) : Nat → Nat → Parse Unit
  | 0, _ => failHere ""
  | n + 1, depth => do
    let p ← get
    match p.current.kind with
    | .lParen => do
      let _ ← advance
      skipParens start n (depth + 1)
    | .rParen =>
      if depth = 1 then return ()
      else do
        let _ ← advance
        skipParens start n (depth - 1)
    | .eof => fail "unterminated process substitution" start
    | _ => do
      let _ ← advance
      skipParens start n depth

/-- `str::trim` on bytes of ASCII blanks. -/
def trimBytes (t : List Char) : List Char :=
  ((t.dropWhile Char.isWhitespace).reverse.dropWhile Char.isWhitespace).reverse

/-- `parse_process_substitution_word`. -/
def parseProcessSubstitutionWord : Parse Word := do
  let p ← get
  let isInput := p.atKind .less
  let _ ← advance
  let _ ← advance
  let first := (← get).current.span.start
  skipParens p.current.span.start (p.source.length + 2) 1
  let last := (← get).current.span.start
  let inner := Utf8.decode (trimBytes ((p.source.drop first).take (last - first)))
  let _ ← advance
  return ⟨[if isInput then .processSubstIn inner else .processSubstOut inner]⟩

/-- The words of an array literal, up to what is no word. -/
def compoundElements : Parse (List (List Char)) := do
  let turns ← many (do
    let p ← get
    if p.atKind .newline then do
      let _ ← advance
      return some none
    else if p.atWord then do
      let tok ← advance
      return some (some (tok.text p.source))
    else return none)
  return turns.filterMap id

/-- The closing parenthesis of an array literal, where there is one. -/
def closeCompound : Parse Unit := do
  if (← get).atKind .rParen then let _ ← advance

/-- The text of an array literal: the texts of its words, joined by blanks. -/
def compoundText (elements : List (List Char)) : List Char :=
  '(' :: [' '].intercalate (elements.map Utf8.decode) ++ [')']

/-- `parse_compound_assign_word`. -/
def parseCompoundAssignWord : Parse Word := do
  let tok ← advance
  let text := tok.text (← get).source
  let _ ← advance
  let elements ← compoundElements
  closeCompound
  return ⟨[.literal (Utf8.decode text ++ compoundText elements)]⟩

/-- `is_assignment_text`. -/
def isAssignmentText (text : List Char) : Bool :=
  if !text.contains '=' then false
  else
    let name := text.takeWhile (· != '=')
    let name := if name.getLast? = some '+' then name.dropLast else name
    let base := if name.contains '[' then
        (if name.getLast? = some ']' then name.takeWhile (· != '[') else [])
      else name
    match base with
    | [] => false
    | c :: cs => isNameStart c && cs.all isNameByte

/-- `parse_assignment_compound_value`. -/
def parseAssignmentCompoundValue : Parse (Option Word) := do
  if !(← get).atKind .lParen then return none
  else do
    let _ ← advance
    let elements ← compoundElements
    closeCompound
    return some ⟨[.literal (compoundText elements)]⟩

/-- `parse_assignment`. -/
def parseAssignment : Parse Assignment := do
  let tok ← advance
  let text := tok.text (← get).source
  let name := textOf (text.takeWhile (· != '='))
  match (text.dropWhile (· != '=')).drop 1 with
  | [] => return ⟨name, ← parseAssignmentCompoundValue⟩
  | value => return ⟨name, some (wordOf value)⟩

/-- `heredoc_delimiter`. -/
def heredocDelimiter (w : Word) : List Char :=
  w.parts.flatMap fun
    | .literal t => t
    | .singleQuoted t => t
    | .doubleQuoted ps => ps.flatMap fun
      | .literal t => t
      | _ => []
    | _ => []

/-- `heredoc_delimiter_is_quoted`. -/
def heredocDelimiterIsQuoted (source : List Char) (w : Word) (span : Span) : Bool :=
  w.parts.any (fun
    | .literal _ => false
    | _ => true) ||
    let text := (source.drop span.start).take (span.stop - span.start)
    text.contains '\'' || text.contains '"'

/-- The operator of a redirection token. -/
def redirectionOp : TokenKind → Option RedirectionOp
  | .less => some .input
  | .greater => some .output
  | .ampGreater => some .output
  | .greaterGreater => some .append
  | .greaterPipe => some .clobber
  | .ampGreaterGreater => some .appendBoth
  | .lessGreater => some .readWrite
  | .lessLess => some .hereDoc
  | .lessLessDash => some .hereDocStrip
  | .lessLessLess => some .hereString
  | _ => none

/-- `>&` and `<&`. -/
def parseDuplication (kind : TokenKind) : Parse Redirection := do
  let _ ← advance
  if (← get).atWord then do
    let (target, _) ← parseWord
    return ⟨none, if kind = .greater then .dupOutput else .dupInput, target, none⟩
  else failHere "expected fd number after >&"

/-- `parse_redirection`.  Both streams (`&>` and `&>>`) have the largest `u32` for their
    descriptor. -/
def parseRedirection : Parse Redirection := do
  let opTok ← advance
  match redirectionOp opTok.kind with
  | none => fail "unexpected redirection operator" opTok.span.start
  | some op => do
    let p ← get
    if p.atKind .amp && (opTok.kind == .greater || opTok.kind == .less) then
      parseDuplication opTok.kind
    else if !p.atWord then failHere "expected word after redirection operator"
    else do
      let (target, span) ← parseWord
      if op = .hereDoc ∨ op = .hereDocStrip then
        modify fun p => { p with pendingHeredocs := p.pendingHeredocs ++
          [⟨heredocDelimiter target, op = .hereDocStrip,
            !heredocDelimiterIsQuoted p.source target span⟩] }
      let both := opTok.kind == .ampGreater || opTok.kind == .ampGreaterGreater
      return ⟨if both then some (2 ^ 32 - 1) else none, op, target, none⟩

/-- `parse_fd_prefixed_redirection`. -/
def parseFdPrefixedRedirection : Parse Redirection := do
  let tok ← advance
  let digit := (tok.text (← get).source).headD '0'
  let redir ← parseRedirection
  return { redir with fd := some (digit.toNat - '0'.toNat) }

/-! ## 3. Simple commands -/

/-- What one turn of `parse_simple_command` adds. -/
inductive SimplePart where
  | assignment (a : Assignment)
  | word (w : Word)
  | redirection (r : Redirection)

/-- `parse_simple_word_part`. -/
def parseSimpleWordPart (pastAssignments : Bool) : Parse SimplePart := do
  let text := (← get).currentText
  if !pastAssignments && isAssignmentText text then return .assignment (← parseAssignment)
  else if text.getLast? = some '=' then
    if (← peekIsLparen) then return .word (← parseCompoundAssignWord)
    else return .word (← parseWord).1
  else return .word (← parseWord).1

/-- `parse_simple_command_part`. -/
def parseSimpleCommandPart (pastAssignments : Bool) : Parse (Option SimplePart) := do
  if (← atFdPrefixRedirection) then return some (.redirection (← parseFdPrefixedRedirection))
  else
    let p ← get
    let substitution ← if p.atKind .less || p.atKind .greater then peekIsLparen else pure false
    if substitution then return some (.word (← parseProcessSubstitutionWord))
    else if p.atRedirection then return some (.redirection (← parseRedirection))
    else if p.atWord then return some (← parseSimpleWordPart pastAssignments)
    else return none

/-- The loop of `parse_simple_command`; a word ends the assignments. -/
def simpleCommandLoop : Nat → Bool → Parse (List SimplePart)
  | 0, _ => failHere ""
  | n + 1, pastAssignments => do
    match ← parseSimpleCommandPart pastAssignments with
    | none => return []
    | some (.word w) => return .word w :: (← simpleCommandLoop n true)
    | some part => return part :: (← simpleCommandLoop n pastAssignments)

/-- `lower_simple_command`. -/
def lowerSimpleCommand (parts : List SimplePart) : Command :=
  let words := parts.filterMap fun
    | .word w => some w
    | _ => none
  let assignments := parts.filterMap fun
    | .assignment a => some a
    | _ => none
  let redirections := parts.filterMap fun
    | .redirection r => some r
    | _ => none
  if !words.isEmpty then .exec ⟨words, assignments, redirections⟩
  else if !assignments.isEmpty then .assign assignments redirections
  else .redirectOnly redirections

/-- `parse_simple_command`. -/
def parseSimpleCommand : Parse Command := do
  let parts ← simpleCommandLoop ((← get).source.length + 2) false
  if parts.isEmpty then failHere "expected a command"
  else return lowerSimpleCommand parts

/-- `parse_trailing_redirections`. -/
def parseTrailingRedirections : Parse (List Redirection) :=
  many (do
    if (← atFdPrefixRedirection) then return some (← parseFdPrefixedRedirection)
    else if (← get).atRedirection then return some (← parseRedirection)
    else return none)

/-! ## 4. Here-documents -/

/-- The line that starts at an offset: its text and the offset of its end. -/
def heredocLine (source : List Char) (pos : Nat) : List Char × Nat :=
  let line := (source.drop pos).takeWhile (· != '\n')
  (line, pos + line.length)

def stripTabs (line : List Char) : List Char := line.dropWhile (· == '\t')

/-- A line without the carriage return before its newline. -/
def stripReturn (line : List Char) : List Char :=
  if line.getLast? = some '\r' then line.dropLast else line

/-- `build_heredoc_body`. -/
def buildHeredocBody (source : List Char) (first last : Nat) (hd : PendingHereDoc) :
    HereDocBody :=
  let raw := (source.drop first).take (last - first)
  let content := if hd.stripTabs then
      let lines := (raw.splitOn '\n').map fun line => stripTabs (stripReturn line)
      ['\n'].intercalate lines
    else raw
  ⟨Utf8.decode content, hd.expandBody⟩

/-- The lines of one here-document from an offset on: its body and the offset after its
    delimiter. -/
def heredocScan (source : List Char) (hd : PendingHereDoc) (first : Nat) :
    Nat → Nat → Except ParseError (HereDocBody × Nat)
  | 0, pos => .error ⟨"", pos⟩
  | n + 1, pos =>
    let (line, stop) := heredocLine source pos
    let check := if hd.stripTabs then stripTabs line else line
    if Utf8.decode check = hd.delimiter then
      .ok (buildHeredocBody source first pos hd, if stop < source.length then stop + 1 else stop)
    else if source.length ≤ stop then
      .error ⟨"unterminated here-doc, expected '" ++ String.ofList hd.delimiter ++ "'", first⟩
    else heredocScan source hd first n (stop + 1)

/-- The bodies of the pending here-documents. -/
def heredocBodies (source : List Char) : List PendingHereDoc → Nat →
    Except ParseError (List HereDocBody × Nat)
  | [], pos => .ok ([], pos)
  | hd :: hds, pos => do
    let (body, pos) ← heredocScan source hd pos (source.length + 2) pos
    let (bodies, pos) ← heredocBodies source hds pos
    return (body :: bodies, pos)

/-- The bodies go to the here-documents without one, in order. -/
def assignBodies : List Redirection → List HereDocBody → List Redirection × List HereDocBody
  | [], bodies => ([], bodies)
  | r :: rs, bodies =>
    if (r.op = .hereDoc ∨ r.op = .hereDocStrip) ∧ r.hereDocBody.isNone then
      let rest := assignBodies rs bodies.tail
      ({ r with hereDocBody := bodies.head? } :: rest.1, rest.2)
    else
      let rest := assignBodies rs bodies
      (r :: rest.1, rest.2)

/-- `assign_heredoc_bodies_cmd`: only the redirections of the command itself. -/
def assignHeredocBodiesCmd (cmd : Command) (bodies : List HereDocBody) :
    Command × List HereDocBody :=
  match cmd with
  | .exec e =>
    let r := assignBodies e.redirections bodies
    (.exec { e with redirections := r.1 }, r.2)
  | .assign as rs => let r := assignBodies rs bodies; (.assign as r.1, r.2)
  | .redirectOnly rs => let r := assignBodies rs bodies; (.redirectOnly r.1, r.2)
  | .subshell b rs => let r := assignBodies rs bodies; (.subshell b r.1, r.2)
  | .group b rs => let r := assignBodies rs bodies; (.group b r.1, r.2)
  | .ifCmd c rs => let r := assignBodies rs bodies; (.ifCmd c r.1, r.2)
  | .whileLoop c rs => let r := assignBodies rs bodies; (.whileLoop c r.1, r.2)
  | .untilLoop c rs => let r := assignBodies rs bodies; (.untilLoop c r.1, r.2)
  | .forLoop c rs => let r := assignBodies rs bodies; (.forLoop c r.1, r.2)
  | .arithFor c rs => let r := assignBodies rs bodies; (.arithFor c r.1, r.2)
  | .caseCmd w is rs => let r := assignBodies rs bodies; (.caseCmd w is r.1, r.2)
  | .select c rs => let r := assignBodies rs bodies; (.select c r.1, r.2)
  | cmd => (cmd, bodies)

/-- A walk over a list that hands the bodies on. -/
def assignEach {α : Type} (f : α → List HereDocBody → α × List HereDocBody) :
    List α → List HereDocBody → List α × List HereDocBody
  | [], bodies => ([], bodies)
  | a :: as, bodies =>
    let first := f a bodies
    let rest := assignEach f as first.2
    (first.1 :: rest.1, rest.2)

/-- `assign_heredoc_bodies_pipeline`. -/
def assignHeredocBodiesPipeline (pl : Pipeline) (bodies : List HereDocBody) :
    Pipeline × List HereDocBody :=
  let r := assignEach assignHeredocBodiesCmd pl.commands bodies
  ({ pl with commands := r.1 }, r.2)

/-- `assign_heredoc_bodies_cc`. -/
def assignHeredocBodiesCc (ls : List AndOr) (bodies : List HereDocBody) : List AndOr :=
  (assignEach (fun (l : AndOr) bodies =>
    let first := assignHeredocBodiesPipeline l.first bodies
    let rest := assignEach (fun (m : AndOrOp × Pipeline) bodies =>
      let r := assignHeredocBodiesPipeline m.2 bodies
      ((m.1, r.1), r.2)) l.rest first.2
    ((⟨first.1, rest.1⟩ : AndOr), rest.2)) ls bodies).1

/-- The lexer goes to an offset, and what was read ahead is dropped. -/
def reposition (pos prevEnd : Nat) : Parse Unit := fun p =>
  let lexer : Lexer := { p.lexer with pos := pos, mode := .normal }
  match nextToken lexer with
  | .ok l => .ok ((), { p with
      lexer := l.lexer, peeked := [], prevEnd := prevEnd, current := l.token })
  | .error e => .error (lexErr lexer e).1

/-- `resolve_heredocs`. -/
def resolveHeredocs (ls : List AndOr) : Parse (List AndOr) := do
  let p ← get
  match heredocBodies p.source p.pendingHeredocs p.current.span.stop with
  | .error e => fail e.message e.offset
  | .ok (bodies, pos) => do
    modify fun p => { p with pendingHeredocs := [] }
    reposition pos p.prevEnd
    return assignHeredocBodiesCc ls bodies

/-! ## 5. Lists -/

section

variable (command : Parse Command)

/-- The stages of a pipeline after the first. -/
def pipelineStages : Parse (List (Command × Bool)) :=
  many (do
    let p ← get
    if p.atKind .pipe || p.atKind .pipeAmp then do
      let _ ← advance
      skipNewlines
      return some (← command, p.atKind .pipeAmp)
    else return none)

/-- A word that may stand before a pipeline. -/
def optionalWord (text : String) : Parse Bool := do
  if (← get).atWordEq text then do
    let _ ← advance
    return true
  else return false

/-- `parse_pipeline`. -/
def parsePipeline : Parse Pipeline := do
  let timed ← optionalWord "time"
  let timePosix ← if timed then optionalWord "-p" else pure false
  let negated ← optionalWord "!"
  let first ← command
  let rest ← pipelineStages command
  return ⟨timed, timePosix, negated, first :: rest.map (·.1), rest.map (·.2)⟩

/-- `parse_and_or`. -/
def parseAndOr : Parse AndOr := do
  let first ← parsePipeline command
  let rest ← many (do
    let p ← get
    if p.atKind .andAnd || p.atKind .orOr then do
      let _ ← advance
      skipNewlines
      return some (if p.atKind .andAnd then AndOrOp.and else .or, ← parsePipeline command)
    else return none)
  return ⟨first, rest⟩

/-- One turn of the loop over the lists of a complete command. -/
def completeCommandTurn : Parse (Option (Option AndOr)) := do
  if !(← get).atKind .semi then return none
  else if (← isDoubleSemi) then return none
  else if (← isCaseFallthrough) then return none
  else if (← isCaseContinueTesting) then return none
  else do
    let _ ← advance
    if (← get).pendingHeredocs.isEmpty then skipNewlines
    if (← get).atCommandStart then return some (some (← parseAndOr command))
    else return some none

/-- `parse_complete_command`. -/
def parseCompleteCommand : Parse CompleteCommand := do
  let start := (← get).current.span.start
  let first ← parseAndOr command
  let rest ← many (completeCommandTurn command)
  let ls := first :: rest.filterMap id
  let p ← get
  let span : Span := ⟨start, p.prevEnd⟩
  if !p.pendingHeredocs.isEmpty && p.atKind .newline then return ⟨← resolveHeredocs ls, span⟩
  else return ⟨ls, span⟩

/-- `parse_compound_list`. -/
def parseCompoundList : Parse (List CompleteCommand) := do
  skipNewlines
  many (do
    if (← get).atCommandStart then do
      let cc ← parseCompleteCommand command
      skipNewlines
      return some cc
    else return none)

/-! ## 6. Compound commands -/

/-- `parse_subshell`. -/
def parseSubshell : Parse Command := do
  let _ ← advance
  let body ← parseCompoundList command
  if !(← get).atKind .rParen then failHere "expected ')' to close subshell"
  else do
    let _ ← advance
    return .subshell body (← parseTrailingRedirections)

/-- `parse_group`. -/
def parseGroup : Parse Command := do
  expectWord "\x7b"
  let body ← parseCompoundList command
  expectWord "\x7d"
  return .group body (← parseTrailingRedirections)

/-- `parse_if`. -/
def parseIf : Parse Command := do
  expectWord "if"
  let condition ← parseCompoundList command
  expectWord "then"
  let thenBody ← parseCompoundList command
  let elifs ← many (do
    if (← get).atWordEq "elif" then do
      let _ ← advance
      let condition ← parseCompoundList command
      expectWord "then"
      return some (⟨condition, ← parseCompoundList command⟩ : Elif)
    else return none)
  let elseBody ← if (← get).atWordEq "else" then do
      let _ ← advance
      let body ← parseCompoundList command
      pure (some body)
    else pure none
  expectWord "fi"
  return .ifCmd ⟨condition, thenBody, elifs, elseBody⟩ (← parseTrailingRedirections)

/-- The body of a loop. -/
def doBody : Parse (List CompleteCommand) := do
  expectWord "do"
  let body ← parseCompoundList command
  expectWord "done"
  return body

/-- `parse_while` and `parse_until`. -/
def parseLoop (keyword : String) : Parse (Loop × List Redirection) := do
  expectWord keyword
  let condition ← parseCompoundList command
  let body ← doBody command
  return (⟨condition, body⟩, ← parseTrailingRedirections)

/-- `consume_optional_semi`. -/
def consumeOptionalSemi : Parse Unit := do
  if (← get).atKind .semi then let _ ← advance

/-- `parse_loop_words_clause`. -/
def parseLoopWordsClause : Parse (Option (List Word)) := do
  if !(← get).atWordEq "in" then do
    consumeOptionalSemi
    return none
  else do
    let _ ← advance
    let words ← many (do
      let p ← get
      if p.atWord && !terminatorWords.contains p.currentText then return some (← parseWord).1
      else return none)
    consumeOptionalSemi
    return some words

/-- `collect_arith_expr`, from an offset on: the offset of the closing `))`. -/
def scanArith (start : Nat) : Nat → Nat → List Char → Except ParseError Nat
  | _, _, [] => .error ⟨"unterminated arithmetic expression, expected '))'", start⟩
  | depth, pos, '(' :: r => scanArith start (depth + 1) (pos + 1) r
  | 0, pos, ')' :: r =>
    if r.head? = some ')' then .ok pos
    else .error ⟨"expected '))' to close arithmetic expression", pos⟩
  | depth + 1, pos, ')' :: r => scanArith start depth (pos + 1) r
  | depth, pos, _ :: r => scanArith start depth (pos + 1) r

/-- `collect_arith_expr`. -/
def collectArithExpr : Parse (List Char) := do
  let p ← get
  let start := p.current.span.start
  match scanArith start 0 start (p.source.drop start) with
  | .error e => fail e.message e.offset
  | .ok pos => do
    reposition (pos + 2) (pos + 2)
    return trimBytes ((p.source.drop start).take (pos - start))

/-- `splitn(3, ';')`. -/
def splitHeader (t : List Char) : List Char × List Char × List Char :=
  let init := t.takeWhile (· != ';')
  let rest := (t.drop init.length).drop 1
  let cond := rest.takeWhile (· != ';')
  (init, cond, (rest.drop cond.length).drop 1)

/-- `parse_arith_for`. -/
def parseArithFor : Parse Command := do
  let _ ← advance
  let _ ← advance
  let (init, cond, step) := splitHeader (← collectArithExpr)
  consumeOptionalSemi
  skipNewlines
  let body ← doBody command
  return .arithFor ⟨textOf (trimBytes init), textOf (trimBytes cond), textOf (trimBytes step), body⟩
    (← parseTrailingRedirections)

/-- Two parentheses with nothing between them stand here. -/
def atDoubleParen : Parse Bool := do
  let p ← get
  if p.atKind .lParen then
    return (← tryPeekNth 0).any fun next =>
      next.kind = .lParen && next.span.start = p.current.span.stop
  else return false

/-- `parse_for`, and `parse_select` where `keyword` says so. -/
def parseForClause (keyword : String) : Parse (For × List Redirection) := do
  let p ← get
  if !p.atWord then failHere ("expected variable name after '" ++ keyword ++ "'")
  else do
    let _ ← advance
    let words ← parseLoopWordsClause
    skipNewlines
    let body ← doBody command
    return (⟨textOf p.currentText, words, body⟩, ← parseTrailingRedirections)

def parseFor : Parse Command := do
  expectWord "for"
  if (← atDoubleParen) then parseArithFor command
  else do
    let (c, redirs) ← parseForClause command "for"
    return .forLoop c redirs

def parseSelect : Parse Command := do
  expectWord "select"
  let (c, redirs) ← parseForClause command "select"
  return .select c redirs

/-- `parse_arith_command`. -/
def parseArithCommand : Parse Command := do
  let _ ← advance
  let _ ← advance
  return .arithCommand (textOf (← collectArithExpr))

/-- `parse_case_patterns`. -/
def parseCasePatterns : Parse (List Word) := do
  if (← get).atKind .lParen then let _ ← advance
  let (first, _) ← parseWord
  let rest ← many (do
    if (← get).atKind .pipe then do
      let _ ← advance
      return some (← parseWord).1
    else return none)
  if !(← get).atKind .rParen then failHere "expected ')' after case pattern"
  else do
    let _ ← advance
    return first :: rest

/-- `parse_case_body`. -/
def parseCaseBody : Parse (List CompleteCommand) :=
  many (do
    if !(← get).atCommandStart then return none
    else if (← isDoubleSemi) then return none
    else if (← isCaseFallthrough) then return none
    else do
      let cc ← parseCompleteCommand command
      skipNewlines
      return some cc)

/-- `parse_case_terminator`. -/
def parseCaseTerminator : Parse CaseTerminator := do
  if (← isCaseContinueTesting) then do
    let _ ← advance
    let _ ← advance
    let _ ← advance
    return .continueTesting
  else if (← isDoubleSemi) then do
    let _ ← advance
    let _ ← advance
    return .stop
  else if (← isCaseFallthrough) then do
    let _ ← advance
    let _ ← advance
    return .fallthrough
  else return .stop

/-- `parse_case`. -/
def parseCase : Parse Command := do
  expectWord "case"
  if !(← get).atWord then failHere "expected word after 'case'"
  else do
    let (word, _) ← parseWord
    skipNewlines
    expectWord "in"
    skipNewlines
    let items ← many (do
      let p ← get
      if p.atWordEq "esac" || p.atKind .eof then return none
      else do
        let patterns ← parseCasePatterns
        skipNewlines
        let body ← parseCaseBody command
        let terminator ← parseCaseTerminator
        skipNewlines
        return some (⟨patterns, body, terminator⟩ : CaseItem))
    expectWord "esac"
    return .caseCmd word items (← parseTrailingRedirections)

/-- `parse_double_bracket`. -/
def parseDoubleBracket : Parse Command := do
  let _ ← advance
  let words ← many (do
    let p ← get
    if p.atKind .dblRBracket then return none
    else if p.atKind .eof then failHere "expected ']]' to close extended test"
    else if p.atWord then return some (← parseWord).1
    else do
      let tok ← advance
      return some ⟨[.literal (tok.text p.source)]⟩)
  let _ ← advance
  return .doubleBracket words

/-- `parse_function_posix`. -/
def parseFunctionPosix : Parse Command := do
  let name := textOf (← get).currentText
  let _ ← advance
  let _ ← advance
  let _ ← advance
  skipNewlines
  return .functionDef name (← command)

/-- The optional `()` of `function name`. -/
def optionalParens : Parse Unit := do
  if (← get).atKind .lParen then do
    let _ ← advance
    if (← get).atKind .rParen then let _ ← advance
    else failHere "expected ')' after '(' in function definition"

/-- `parse_function_bash`. -/
def parseFunctionBash : Parse Command := do
  expectWord "function"
  let p ← get
  if !p.atWord then failHere "expected function name after 'function'"
  else do
    let _ ← advance
    optionalParens
    skipNewlines
    return .functionDef (textOf p.currentText) (← command)

/-- The words that start a compound command. -/
inductive Keyword where
  | group | ifCmd | whileLoop | untilLoop | forLoop | caseCmd | select | function
  deriving DecidableEq, Repr

def keywordOf (text : List Char) : Option Keyword :=
  [("\x7b".toList, .group), ("if".toList, .ifCmd), ("while".toList, .whileLoop),
    ("until".toList, .untilLoop), ("for".toList, .forLoop), ("case".toList, .caseCmd),
    ("select".toList, .select), ("function".toList, .function)].lookup text

/-- A compound command, by its keyword. -/
def parseKeyword : Keyword → Parse Command
  | .group => parseGroup command
  | .ifCmd => parseIf command
  | .whileLoop => do
    let (c, redirs) ← parseLoop command "while"
    return .whileLoop c redirs
  | .untilLoop => do
    let (c, redirs) ← parseLoop command "until"
    return .untilLoop c redirs
  | .forLoop => parseFor command
  | .caseCmd => parseCase command
  | .select => parseSelect command
  | .function => parseFunctionBash command

/-- The test of `try_parse_compound_keyword` for `name ( )`. -/
def atFunctionPosix : Parse Bool := do
  if (← peekNth 0).kind = .lParen then return (← peekNth 1).kind = .rParen
  else return false

/-- `parse_command_inner`, with `try_parse_compound_keyword` and
    `parse_command_lparen`. -/
def parseCommandInner : Parse Command := do
  let p ← get
  if p.atKind .lParen then do
    if (← atDoubleParen) then parseArithCommand else parseSubshell command
  else if p.atKind .dblLBracket then parseDoubleBracket
  else if !p.atWord then parseSimpleCommand
  else match keywordOf p.currentText with
    | some keyword => parseKeyword command keyword
    | none => do
      if (← atFunctionPosix) then parseFunctionPosix command else parseSimpleCommand

end

/-- `MAX_NESTING_DEPTH`. -/
def maxNestingDepth : Nat := 24

/-- `enter_nesting`. -/
def enterNesting : Parse Unit := fun p =>
  if maxNestingDepth ≤ p.nestingDepth then
    .error ⟨"maximum nesting depth (24) exceeded", p.current.span.start⟩
  else .ok ((), { p with nestingDepth := p.nestingDepth + 1 })

/-- `exit_nesting`. -/
def exitNesting : Parse Unit := modify fun p => { p with nestingDepth := p.nestingDepth - 1 }

/-- `parse_command`. -/
def parseCommand : Nat → Parse Command
  | 0 => failHere ""
  | n + 1 => do
    enterNesting
    let cmd ← parseCommandInner (parseCommand n)
    exitNesting
    return cmd

/-! ## 7. Programs -/

/-- `{:?}` of a token's kind. -/
def TokenKind.debug : TokenKind → String
  | .word b => "Word \x7b is_reserved_candidate: " ++ (if b then "true" else "false") ++ " \x7d"
  | .semi => "Semi"
  | .newline => "Newline"
  | .pipe => "Pipe"
  | .andAnd => "AndAnd"
  | .orOr => "OrOr"
  | .amp => "Amp"
  | .pipeAmp => "PipeAmp"
  | .less => "Less"
  | .greater => "Greater"
  | .greaterGreater => "GreaterGreater"
  | .greaterPipe => "GreaterPipe"
  | .lessLess => "LessLess"
  | .lessLessDash => "LessLessDash"
  | .lessLessLess => "LessLessLess"
  | .lessGreater => "LessGreater"
  | .ampGreater => "AmpGreater"
  | .ampGreaterGreater => "AmpGreaterGreater"
  | .lParen => "LParen"
  | .rParen => "RParen"
  | .dblLBracket => "DblLBracket"
  | .dblRBracket => "DblRBracket"
  | .eof => "Eof"

/-- `parse_program`. -/
def parseProgram : Parse Program := do
  let items ← parseCompoundList (parseCommand (maxNestingDepth + 1))
  let p ← get
  if p.atKind .eof then return ⟨items⟩
  else failHere ("unexpected token: " ++ TokenKind.debug p.current.kind)

/-- `Parser::new`. -/
def new (source : List Char) : Except ParseError State :=
  match nextToken (.new source) with
  | .ok l => .ok ⟨source, l.lexer, l.token, [], 0, [], 0⟩
  | .error e => .error (lexErr (.new source) e).1

/-- `parse` and `lower`. -/
def parse (source : String) : Except ParseError Program := do
  let p ← new (Utf8.encode source.toList)
  return (← parseProgram p).1

end Wasmsh.Parser

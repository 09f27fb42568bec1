import Wasmsh.SedScripts

/-!
# The cycle of `sed`

`sed_process_reader` of `wasmsh-utils/src/text_ops.rs` and what it calls, beside the cycle as
it is meant to be: the instructions in order on each line, two addresses for a range of lines,
what is printed, deleted and appended, and where the run ends.  The compiler of the engine is
a parameter.  Lines are without their newline, and so is the output a list of lines.
-/

namespace Wasmsh.Sed

open PosixRegex Splices

/-! ## 1. The cycle of the program -/

section Program

variable (compileBre : List Char → Option Regex)

/-- `grep_matches`, respecting case: the fallback for a pattern that does not compile. -/
def grepMatches (line pattern : List Char) : Bool :=
  match pattern with
  | '^' :: rest =>
    if rest.getLast? = some '$' then line == rest.dropLast else rest.isPrefixOf line
  | _ =>
    if pattern.getLast? = some '$' then pattern.dropLast.isSuffixOf line
    else line.tails.any (pattern.isPrefixOf ·)

/-- `sed_addr_matches`, with the new `in_range`. -/
def sedAddrMatches (lineNum : Nat) (isLast : Bool) (line : List Char) :
    SedAddr → Bool → Bool × Bool
  | .none, inRange => (true, inRange)
  | .line n, inRange => (lineNum == n, inRange)
  | .last, inRange => (isLast, inRange)
  | .regex pattern, inRange =>
    (match compileBre pattern with
      | some re => (find re (Utf8.encode line)).isSome
      | none => grepMatches line pattern, inRange)
  | .range start stop, inRange =>
    if inRange then (true, !(sedAddrMatches lineNum isLast line stop false).1)
    else
      ((sedAddrMatches lineNum isLast line start false).1,
        (sedAddrMatches lineNum isLast line start false).1)

/-- `str::replace` and `str::replacen` with one replacement, for a pattern that is not empty;
    the number counts what is left of a match. -/
def replaceLiteral (pattern new : List Char) (all : Bool) : Nat → List Char → List Char
  | _, [] => []
  | skip + 1, _ :: cs => replaceLiteral pattern new all skip cs
  | 0, c :: cs =>
    if pattern.isPrefixOf (c :: cs) then
      new ++ (if all then replaceLiteral pattern new all (pattern.length - 1) cs
        else cs.drop (pattern.length - 1))
    else c :: replaceLiteral pattern new all 0 cs

/-- `sed_apply_substitute`; no value is a panic. -/
def sedApplySubstitute (text : List Char) (sub : SedSubstitute) : Option (List Char) :=
  match compileBre sub.pattern with
  | some re =>
    (if sub.all then replaceAll re (Utf8.encode text) sub.replacement
      else replace re (Utf8.encode text) sub.replacement).map (Utf8.decode ∘ outputText)
  | none => some (replaceLiteral sub.pattern sub.replacement sub.all 0 text)

/-- `sed_apply_transliterate`. -/
def sedApplyTransliterate (text source target : List Char) : List Char :=
  text.map fun c =>
    match source.idxOf? c with
    | some pos => (target[pos]?.or target.getLast?).getD c
    | none => c

/-- `SedLineState`. -/
structure SedLineState where
  text : List Char
  deleted : Bool
  printed : Bool
  quit : Bool
  deriving DecidableEq, Repr

/-- `sed_apply_command`: the new state, the lines that are emitted, and whether the
    instructions stop. -/
def sedApplyCommand (suppressPrint : Bool) (st : SedLineState) :
    SedCmd → Option (SedLineState × List (List Char) × Bool)
  | .substitute sub =>
    (sedApplySubstitute compileBre st.text sub).map fun text => ({ st with text }, [], false)
  | .delete => some ({ st with deleted := true }, [], true)
  | .print => some ({ st with printed := true }, [st.text], false)
  | .transliterate source target =>
    some ({ st with text := sedApplyTransliterate st.text source target }, [], false)
  | .appendText text =>
    if !suppressPrint && !st.printed then
      some ({ st with printed := true }, [st.text, text], false)
    else some (st, [text], false)
  | .insertText text => some (st, [text], false)
  | .changeText text => some ({ st with deleted := true, printed := true }, [text], true)
  | .quit => some ({ st with quit := true }, [], true)

/-- `sed_run_instructions`, each instruction with its range state. -/
def sedRunInstructions (suppressPrint : Bool) (lineNum : Nat) (isLast : Bool) :
    List (SedInstruction × Bool) → SedLineState →
      Option (List (SedInstruction × Bool) × List (List Char) × SedLineState)
  | [], st => some ([], [], st)
  | (instr, inRange) :: rest, st =>
    let matched := sedAddrMatches compileBre lineNum isLast st.text instr.addr inRange
    if matched.1 then
      (sedApplyCommand compileBre suppressPrint st instr.cmd).bind fun applied =>
        if applied.2.2 then some ((instr, matched.2) :: rest, applied.2.1, applied.1)
        else
          (sedRunInstructions suppressPrint lineNum isLast rest applied.1).map fun run =>
            ((instr, matched.2) :: run.1, applied.2.1 ++ run.2.1, run.2.2)
    else
      (sedRunInstructions suppressPrint lineNum isLast rest st).map fun run =>
        ((instr, matched.2) :: run.1, run.2)

/-- What is emitted behind the instructions. -/
def automaticPrint (suppressPrint : Bool) (st : SedLineState) : List (List Char) :=
  if !st.deleted && !suppressPrint && !st.printed then [st.text] else []

/-- The loop of `sed_process_reader`. -/
def sedProcessLines (suppressPrint : Bool) :
    Nat → List (SedInstruction × Bool) → List (List Char) → Option (List (List Char))
  | _, _, [] => some []
  | lineNum, states, line :: lines =>
    (sedRunInstructions compileBre suppressPrint lineNum lines.isEmpty states
      ⟨line, false, false, false⟩).bind fun run =>
        let out := run.2.1 ++ automaticPrint suppressPrint run.2.2
        if run.2.2.quit then some out
        else (sedProcessLines suppressPrint (lineNum + 1) run.1 lines).map (out ++ ·)

/-- The lines of an input, `read_next_line_from_reader`. -/
def inputLines (text : List Char) : List (List Char) :=
  let parts := text.splitOn '\n'
  if parts.getLast? = some [] then parts.dropLast else parts

/-- `sed [-n] script` on one input: the lines that come out. -/
def utilSed (suppressPrint : Bool) (script input : List Char) : Option (List (List Char)) :=
  (parseSedScript script).bind fun instructions =>
    sedProcessLines compileBre suppressPrint 1 (instructions.map (·, false)) (inputLines input)

end Program

/-! ## 2. The reference cycle -/

/-- A line number, `$` or a regular expression. -/
inductive Address where
  | line (n : Nat)
  | last
  | regex (pattern : List Char)
  deriving DecidableEq, Repr

/-- No address, one, or a range of two. -/
inductive Selector where
  | every
  | one (address : Address)
  | range (first second : Address)
  deriving DecidableEq, Repr

/-- The commands: `s` with its delimiter and whether it is global, `d`, `p`, `q`, `y`, `a`, `i`
    and `c`. -/
inductive Command where
  | s (delim : Char) (pattern replacement : List Char) (all : Bool)
  | d
  | p
  | q
  | y (source target : List Char)
  | a (text : List Char)
  | i (text : List Char)
  | c (text : List Char)
  deriving DecidableEq, Repr

structure Instruction where
  selector : Selector
  command : Command
  deriving DecidableEq, Repr

/-- What stands in a replacement: characters, and groups to insert, the whole match being the
    group 0. -/
inductive Insert where
  | char (c : Char)
  | group (i : Nat)
  deriving DecidableEq, Repr

/-- The character that a letter stands for behind a backslash. -/
def escapedLetter : Char → Char
  | 'n' => '\n'
  | 't' => '\t'
  | 'r' => '\r'
  | c => c

/-- How a replacement is read. -/
def inserts : List Char → List Insert
  | [] => []
  | '&' :: template => .group 0 :: inserts template
  | '\\' :: c :: template =>
    (if c.isDigit then .group (c.toNat - '0'.toNat) else .char (escapedLetter c)) ::
      inserts template
  | c :: template => .char c :: inserts template

/-- An occurrence of a pattern in a text: where it is, and where its groups are. -/
structure Occurrence where
  start : Nat
  stop : Nat
  groups : List (Option (Nat × Nat))
  deriving DecidableEq, Repr

namespace Occurrence

variable (o : Occurrence) (text : List Char)

/-- Where a group is. -/
def range : Nat → Option (Nat × Nat)
  | 0 => some (o.start, o.stop)
  | i + 1 => (o.groups[i]?).join

/-- The text of a group; one that has no part in the match is empty. -/
def groupText (i : Nat) : List Char :=
  match o.range i with
  | some (a, b) => (text.drop a).take (b - a)
  | none => []

def insertText : Insert → List Char
  | .char c => Utf8.encodeChar c
  | .group i => o.groupText text i

/-- The occurrence and what is put in its place. -/
def replacedBy (replacement : List Char) : Replaced Char :=
  (o.start, o.stop, (inserts replacement).flatMap (o.insertText text))

end Occurrence

section Occurrences

variable (inner : Engine) (text : List Char)

/-- The occurrence that the engine finds at a place; `^` matches at the start of the text
    only. -/
def occurrenceAt (place : Nat) : Option Occurrence :=
  (inner.matchesExact (place != 0) (text.drop place)).bind fun caps =>
    caps.whole.map fun whole =>
      ⟨place + whole.1, place + whole.2,
        caps.groups.map (·.map fun group => (place + group.1, place + group.2))⟩

/-- The successive occurrences from a place on, `behind` being the end of the one before: an
    empty one right there does not count, and behind an empty one the search goes on after the
    next character. -/
def occurrencesFrom : Nat → Nat → Option Nat → List Occurrence
  | 0, _, _ => []
  | fuel + 1, place, behind =>
    match (List.range' place (text.length + 1 - place)).findSome? (occurrenceAt inner text) with
    | none => []
    | some o =>
      if o.start = o.stop ∧ behind = some o.start then
        occurrencesFrom fuel (nextPlace text o.start o.stop) behind
      else o :: occurrencesFrom fuel (nextPlace text o.start o.stop) (some o.stop)

/-- The occurrences that `s` replaces. -/
def replacedOccurrences (all : Bool) : List Occurrence :=
  let found := occurrencesFrom inner text (text.length + 1) 0 none
  if all then found else found.take 1

end Occurrences

section Reference

variable (compileBre : List Char → Option Regex)

/-- The address matches the line. -/
def Address.selects (lineNum : Nat) (isLast : Bool) (text : List Char) : Address → Bool
  | line n => lineNum == n
  | last => isLast
  | regex pattern => (compileBre pattern).any fun re => (find re (Utf8.encode text)).isSome

/-- The line is one of the selected ones, and whether a range goes on behind it: from a line
    that matches the first address through the first later one that matches the second, and
    for a line number not above the current one that line alone. -/
def Selector.select (lineNum : Nat) (isLast : Bool) (text : List Char) (active : Bool) :
    Selector → Bool × Bool
  | every => (true, active)
  | one address => (address.selects compileBre lineNum isLast text, active)
  | range first second =>
    if active then
      match second with
      | .line n => (decide (lineNum ≤ n), decide (lineNum < n))
      | second => (true, !second.selects compileBre lineNum isLast text)
    else if first.selects compileBre lineNum isLast text then
      match second with
      | .line n => (true, decide (lineNum < n))
      | _ => (true, true)
    else (false, false)

/-- The text with the occurrences of the pattern replaced, the first one or all. -/
def substituted (pattern replacement : List Char) (all : Bool) (text : List Char) : List Char :=
  match compileBre pattern with
  | some re =>
    Utf8.decode (splice (Utf8.encode text) 0 ((replacedOccurrences re.inner (Utf8.encode text)
      all).map (·.replacedBy (Utf8.encode text) replacement)))
  | none => text

/-- Each character of the source replaced by the one at its place in the target. -/
def transliterated (source target text : List Char) : List Char :=
  text.map fun c => ((source.idxOf? c).bind (target[·]?)).getD c

/-- How the instructions on a line end: behind the last one, by `d` or `c`, or by `q`. -/
inductive Ending where
  | finished
  | deleted
  | quit
  deriving DecidableEq, Repr

/-- What is done on a line: the lines printed, those queued by `a`, the text, the ending, and
    which ranges go on. -/
structure Outcome where
  printed : List (List Char)
  queued : List (List Char)
  text : List Char
  ending : Ending
  states : List (Instruction × Bool)
  deriving DecidableEq, Repr

/-- A command on a selected line, and the instructions behind it; `ends` says that no range of
    the instruction goes on. -/
def Command.run (ends : Bool) (text : List Char) (behind : List (Instruction × Bool))
    (rest : List Char → Outcome) : Command → Outcome
  | s _ pattern replacement all => rest (substituted compileBre pattern replacement all text)
  | d => ⟨[], [], text, .deleted, behind⟩
  | p => { rest text with printed := text :: (rest text).printed }
  | q => ⟨[], [], text, .quit, behind⟩
  | y source target => rest (transliterated source target text)
  | a new => { rest text with queued := new :: (rest text).queued }
  | i new => { rest text with printed := new :: (rest text).printed }
  | c new => ⟨if ends then [new] else [], [], text, .deleted, behind⟩

/-- The instructions on a line. -/
def runLine (lineNum : Nat) (isLast : Bool) : List (Instruction × Bool) → List Char → Outcome
  | [], text => ⟨[], [], text, .finished, []⟩
  | (instr, active) :: behind, text =>
    let chosen := instr.selector.select compileBre lineNum isLast text active
    let out :=
      if chosen.1 then
        instr.command.run compileBre (!chosen.2) text behind (runLine lineNum isLast behind)
      else runLine lineNum isLast behind text
    { out with states := (instr, chosen.2) :: out.states }

/-- What comes out for a line: what is printed on it, the line itself unless it is deleted, and
    what `a` has queued. -/
def Outcome.lines (suppressPrint : Bool) (out : Outcome) : List (List Char) :=
  out.printed ++ (if suppressPrint || out.ending == .deleted then [] else [out.text]) ++ out.queued

/-- The cycle over the lines. -/
def cycle (suppressPrint : Bool) :
    Nat → List (Instruction × Bool) → List (List Char) → List (List Char)
  | _, _, [] => []
  | lineNum, states, line :: lines =>
    let out := runLine compileBre lineNum lines.isEmpty states line
    if out.ending = .quit then out.lines suppressPrint
    else out.lines suppressPrint ++ cycle suppressPrint (lineNum + 1) out.states lines

/-- The lines that `sed` prints for a script. -/
def reference (suppressPrint : Bool) (script : List Instruction) (input : List Char) :
    List (List Char) :=
  cycle compileBre suppressPrint 1 (script.map (·, false)) (inputLines input)

/-! ## 3. Steps that the program takes as the reference does -/

/-- The patterns of the addresses compile. -/
def Address.Compiles : Address → Prop
  | regex pattern => (compileBre pattern).isSome = true
  | _ => True

def Selector.Compiles : Selector → Prop
  | every => True
  | one address => address.Compiles compileBre
  | range first second => first.Compiles compileBre ∧ second.Compiles compileBre

/-- A range up to a line number begins before that line, and is looked at no later. -/
def Selector.Fits (lineNum : Nat) (isLast : Bool) (text : List Char) (active : Bool) :
    Selector → Prop
  | range first (.line n) =>
    if active then lineNum ≤ n
    else first.selects compileBre lineNum isLast text = true → lineNum < n
  | _ => True

/-- A match of the engine is an occurrence, and for every group that the replacement inserts
    the offsets, counted from where the search began, lead to the text of the group. -/
def Matches (text replacement : List Char) (m : PosixRegex.Match) (o : Occurrence) : Prop :=
  m.start = o.start ∧ m.stop = o.stop ∧ ∀ i, .group i ∈ inserts replacement →
    pushCapture (text.drop m.place) m.caps i = some (o.groupText text i)

/-- The pattern compiles, the matches that the engine finds behind each other are the
    occurrences, and no character is lost or cut. -/
def SubstitutesCleanly (pattern replacement : List Char) (all : Bool) (text : List Char) : Prop :=
  ∃ re, compileBre pattern = some re ∧
    List.Forall₂ (Matches (Utf8.encode text) replacement)
      (ReplaceMode.picked (if all then .all else .first)
        (foundBy re (leftmostMatch re (Utf8.encode text)) (Utf8.encode text)))
      (replacedOccurrences re.inner (Utf8.encode text) all) ∧
    Clean re (Utf8.encode text) replacement (if all then .all else .first)

/-- What may be done after `p` and after `a` on the same line: after `a` the line is printed, so
    it must not change or be deleted, and nothing else may be printed; after `p` it must not be
    printed once more. -/
def Command.Fits (suppressPrint ends printed appended : Bool) (text : List Char)
    (rest : Bool → Bool → List Char → Prop) : Command → Prop
  | s _ pattern replacement all =>
    SubstitutesCleanly compileBre pattern replacement all text ∧
      (appended = true → suppressPrint = true ∨
        substituted compileBre pattern replacement all text = text) ∧
      rest printed appended (substituted compileBre pattern replacement all text)
  | d => appended = true → suppressPrint = true ∨ printed = true
  | p => appended = false ∧ rest true false text
  | q => suppressPrint = true ∨ printed = false
  | y source target =>
    source.length = target.length ∧
      (appended = true → suppressPrint = true ∨ transliterated source target text = text) ∧
      rest printed appended (transliterated source target text)
  | a _ => rest printed true text
  | i _ => appended = false ∧ rest printed false text
  | c _ => ends = true ∧ appended = false

def InstructionsFit (suppressPrint : Bool) (lineNum : Nat) (isLast : Bool) :
    List (Instruction × Bool) → Bool → Bool → List Char → Prop
  | [], printed, _, _ => suppressPrint = true ∨ printed = false
  | (instr, active) :: behind, printed, appended, text =>
    instr.selector.Fits compileBre lineNum isLast text active ∧
      if (instr.selector.select compileBre lineNum isLast text active).1 = true then
        instr.command.Fits compileBre suppressPrint
          (!(instr.selector.select compileBre lineNum isLast text active).2) printed appended text
          (InstructionsFit suppressPrint lineNum isLast behind)
      else InstructionsFit suppressPrint lineNum isLast behind printed appended text

/-- Every step of the cycle is one that the program takes as the reference does. -/
def CycleFits (suppressPrint : Bool) :
    Nat → List (Instruction × Bool) → List (List Char) → Prop
  | _, _, [] => True
  | lineNum, states, line :: lines =>
    InstructionsFit compileBre suppressPrint lineNum lines.isEmpty states false false line ∧
      ((runLine compileBre lineNum lines.isEmpty states line).ending ≠ .quit →
        CycleFits suppressPrint (lineNum + 1)
          (runLine compileBre lineNum lines.isEmpty states line).states lines)

end Reference

end Wasmsh.Sed

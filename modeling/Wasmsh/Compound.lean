import Wasmsh.Dispatch

/-!
# Compound commands

`execute_command_body` and below: conditions, loops, `case`, `select` and subshells.
Each loop form keeps its own way of looking at the flags after its body.
-/

namespace Wasmsh

open Hir IndexMap

namespace Interp

variable {W P : Type} (h : Host W P) (r : Recs W P)

/-! ## 1. Conditions and loops -/

/-- A condition, with errexit suppressed. -/
def executeCondition (cond : List CompleteCommand) (s : Runtime W) : Run W (Runtime W) := do
  let t ← r.executeBody cond s.enterCondition
  return Runtime.leaveCondition s t

/-- The `elif` and `else` part of `execute_if`. -/
def executeElifs : List Elif → Option (List CompleteCommand) → Runtime W → Run W (Runtime W)
  | [], some body, s => r.executeBody body s
  | [], none, s => .ok (s.setStatus 0)
  | e :: elifs, elseBody, s => do
    let s ← executeCondition r e.condition s
    if s.state.lastStatus = 0 then r.executeBody e.thenBody s
    else executeElifs elifs elseBody s

/-- `execute_if`. -/
def executeIf (c : If) (s : Runtime W) : Run W (Runtime W) := do
  let s ← executeCondition r c.condition s
  if s.state.lastStatus = 0 then r.executeBody c.thenBody s
  else executeElifs r c.elifs c.elseBody s

/-- The status of a loop: that of its last body, zero when the body never ran. -/
def loopStatus (ranBody : Bool) (last : Int) : Int := if ranBody then last else 0

/-- `handle_loop_control`; the result tells the loop to end. -/
def handleLoopControl (s : Runtime W) : Bool × Runtime W :=
  if 0 < s.exec.breakDepth then
    (true, { s with exec := { s.exec with breakDepth := s.exec.breakDepth - 1 } })
  else
    let s := { s with exec := { s.exec with loopContinue := false } }
    (s.exec.returnRequested.isSome || s.exec.exitRequested.isSome, s)

/-- One turn of `execute_while_loop`, or of `execute_until_loop` where `isUntil`. -/
def whileTurn (isUntil : Bool) (c : Loop) (ranBody : Bool) (last : Int) (s : Runtime W) :
    Run W (Runtime W) := do
  let checked := s.checkResourceLimits
  let s := checked.2
  if checked.1 then return s.setStatus (loopStatus ranBody last)
  else
    let s ← executeCondition r c.condition (s.record .iteration)
    if (s.state.lastStatus == 0) == isUntil then
      return s.setStatus (loopStatus ranBody last)
    else
      let s ← r.executeBody c.body s
      let last := s.state.lastStatus
      let control := handleLoopControl s
      if control.1 then return control.2.setStatus last
      else r.whileTurn isUntil c true last control.2

/-- The loop of `execute_for_loop` over the words that are left. -/
def forLoop (c : For) : List String → Bool → Int → Runtime W → Run W (Runtime W)
  | [], ranBody, last, s => .ok (s.setStatus (loopStatus ranBody last))
  | word :: words, ranBody, last, s => do
    let checked := s.checkResourceLimits
    let s := checked.2
    if checked.1 then return s.setStatus (loopStatus ranBody last)
    else
      let s ← (s.record (.loopVar c.varName word)).setVar c.varName word
      let s ← r.executeBody c.body s
      let last := s.state.lastStatus
      if 0 < s.exec.breakDepth then
        return { s with exec := { s.exec with breakDepth := s.exec.breakDepth - 1 } }.setStatus last
      else if s.exec.loopContinue then
        forLoop c words true last { s with exec := { s.exec with loopContinue := false } }
      else if s.exec.exitRequested.isSome then return s.setStatus last
      else forLoop c words true last s

/-- The output of a part that is a command substitution. -/
def substOutput (p : WordPart) (s : Runtime W) : Run W (List Char × Runtime W) :=
  match p with
  | .commandSubstitution inner => executeSubst h r inner s
  | _ => .ok ([], s)

/-- One part in `split_for_parts`, outside double quotes or inside. -/
def splitForPart (ifs : List Char) (quoted : Bool) (p : WordPart) (f : ForFields)
    (s : Runtime W) : Run W (ForFields × Runtime W) := do
  let (out, s) ← substOutput h r p s
  let step := h.splitForPart ifs quoted p out f s.state
  let s ← s.applyOps step.1
  return (step.2, s)

/-- The parts inside double quotes in `split_for_parts`. -/
def splitQuotedParts (ifs : List Char) : List WordPart → ForFields → Runtime W →
    Run W (ForFields × Runtime W)
  | [], f, s => .ok (f, s)
  | p :: ps, f, s => do
    let (f, s) ← splitForPart h r ifs true p f s
    splitQuotedParts ifs ps f s

/-- `split_for_parts`. -/
def splitForParts (ifs : List Char) : List WordPart → ForFields → Runtime W →
    Run W (ForFields × Runtime W)
  | [], f, s => .ok (f, s)
  | .doubleQuoted qs :: ps, f, s => do
    let (f, s) ← splitQuotedParts h r ifs qs { f with quotedSeen := true } s
    splitForParts ifs ps f s
  | p :: ps, f, s => do
    let (f, s) ← splitForPart h r ifs false p f s
    splitForParts ifs ps f s

/-- The field separators. -/
def ifsOf (s : ShellState) : List Char := ((s.getVar "IFS").getD " \t\n").toList

/-- The fields that `split_for_word` leaves in `out`. -/
def forFieldTexts (f : ForFields) : List (List Char) :=
  if !f.current.isEmpty || f.quotedSeen then f.out ++ [f.current] else f.out

/-- `split_for_word`. -/
def splitForWord (w : Word) (s : Runtime W) : Run W (List (List Char) × Runtime W) := do
  let (f, s) ← splitForParts h r (ifsOf s.state) w.parts ⟨[], [], false⟩ s
  return (forFieldTexts f, s)

/-- `split_for_word` for each word of a list. -/
def splitForWords : List Word → Runtime W → Run W (List String × Runtime W)
  | [], s => .ok ([], s)
  | w :: ws, s => do
    let (first, s) ← splitForWord h r w s
    let (fields, s) ← splitForWords ws s
    return (first.map String.ofList ++ fields, s)

/-- `expand_for_words`. -/
def expandForWords (words : Option (List Word)) (s : Runtime W) :
    Run W (List String × Runtime W) :=
  match words with
  | none => .ok (s.state.positional, s)
  | some ws => do
    let (fields, s) ← splitForWords h r ws s
    return (h.expandGlobs fields s.state s.world, s)

/-- `execute_for_loop`. -/
def executeForLoop (c : For) (s : Runtime W) : Run W (Runtime W) := do
  let (words, s) ← expandForWords h r c.words s
  forLoop r c words false 0 s

/-- Whether one of the patterns of an item matches; the patterns are expanded until one
    does. -/
def matchPatterns (nocase : Bool) (value : String) : List Word → Runtime W →
    Run W (Bool × Runtime W)
  | [], s => .ok (false, s)
  | p :: ps, s => do
    let pat := h.expandWord p s.state
    let s ← s.applyOps pat.1
    if h.globMatch nocase pat.2 value then return (true, s)
    else matchPatterns nocase value ps s

/-- Whether the body of an item runs; after `;&` it does without a test. -/
def itemMatches (nocase : Bool) (value : String) (patterns : List Word) (fallthrough : Bool)
    (s : Runtime W) : Run W (Bool × Runtime W) :=
  if fallthrough then .ok (true, s) else matchPatterns h nocase value patterns s

/-- The loop of `execute_case` over the items that are left. -/
def caseItems (nocase : Bool) (value : String) : List CaseItem → Bool → Runtime W →
    Run W (Runtime W)
  | [], _, s => .ok s
  | item :: items, fallthrough, s => do
    let (matched, s) ← itemMatches h nocase value item.patterns fallthrough s
    if matched then do
      let s ← r.executeBody item.body s
      match item.terminator with
      | .stop => return s
      | .fallthrough => caseItems nocase value items true s
      | .continueTesting => caseItems nocase value items false s
    else caseItems nocase value items false s

/-- `execute_case`. -/
def executeCase (word : Word) (items : List CaseItem) (s : Runtime W) : Run W (Runtime W) := do
  let nocase := s.state.flag "SHOPT_nocasematch"
  let value := h.expandWord word s.state
  let s ← s.applyOps value.1
  caseItems h r nocase value.2 items false s

/-- An expression of the head of an arithmetic `for`; an empty one does nothing. -/
def arithEffect (expr : String) (s : Runtime W) : Run W (Runtime W) :=
  if expr = "" then .ok s else s.applyOps (h.evalArithmetic expr s.state).1

/-- The condition of an arithmetic `for`; an empty one holds. -/
def arithHolds (expr : String) (s : Runtime W) : Bool :=
  expr = "" || (h.evalArithmetic expr s.state).2 != 0

/-- One turn of `execute_arith_for`. -/
def arithForTurn (c : ArithFor) (ranBody : Bool) (last : Int) (s : Runtime W) :
    Run W (Runtime W) :=
  let checked := s.checkResourceLimits
  if checked.1 then .ok (checked.2.setStatus (loopStatus ranBody last))
  else do
    let go := arithHolds h c.cond checked.2
    let s ← arithEffect h c.cond (checked.2.record .iteration)
    if !go then return s.setStatus (loopStatus ranBody last)
    else
      let s ← r.executeBody c.body s
      let last := s.state.lastStatus
      let control := handleLoopControl s
      if control.1 then return control.2.setStatus last
      else
        let s ← arithEffect h c.step control.2
        r.arithForTurn c true last s

/-- `execute_arith_for`. -/
def executeArithFor (c : ArithFor) (s : Runtime W) : Run W (Runtime W) := do
  let s ← arithEffect h c.init s
  arithForTurn h r c false 0 s

/-! ## 2. `select`, subshells and the commands themselves -/

/-- The word a reply to `select` picks. -/
def pickSelectWord (reply : String) (words : List String) : String :=
  match parseUnsigned 64 reply with
  | some n => if 1 ≤ n then (words[n - 1]?).getD "" else ""
  | none => ""

/-- `print_select_menu`. -/
def printSelectMenu (words : List String) (s : Runtime W) : Runtime W :=
  words.zipIdx.foldl (fun s e => s.writeStderr h (toString (e.2 + 1) ++ ") " ++ e.1 ++ "\n")) s

/-- The loop of `execute_select` over the lines of its input. -/
def selectLoop (c : For) (words : List String) : List String → Runtime W → Run W (Runtime W)
  | [], s => .ok s
  | reply :: replies, s => do
    let s ← (s.record .iteration).setVar "REPLY" reply
    let s ← s.setVar c.varName (pickSelectWord reply words)
    let s ← r.executeBody c.body s
    let control := handleLoopControl s
    if control.1 then return control.2
    else
      let s := if reply = "" then printSelectMenu h words control.2 else control.2
      selectLoop c words replies s

/-- `execute_select`, with the redirections that give it its input. -/
def executeSelect (c : For) (redirs : List Redirection) (s : Runtime W) : Run W (Runtime W) := do
  let (redirs, s) ← resolveRedirections h r redirs s
  let prepared := h.prepareExecIo redirs s.state s.world
  let s ← s.applyEffect h false prepared.1
  if !prepared.2 then return s
  else
    let (words, s) ← expandForWords h r c.words s
    if words.isEmpty then return s
    else
      let s := printSelectMenu h words s
      let input := h.selectInput s.world
      selectLoop h r c words input.1 { s with world := input.2 }

/-- One of the trap variables a subshell puts back. -/
def restoreTrap (name : String) (value : Option String) (s : Runtime W) : Run W (Runtime W) :=
  match value with
  | some v => s.setVar name v
  | none => .ok { s with state := s.state.unsetVar name }

/-- The state in which the body of a subshell starts. -/
def enterSubshell (s : Runtime W) : Runtime W :=
  let st := (s.state.unsetVar "_TRAP_EXIT").unsetVar "_TRAP_IGNORE_EXIT"
  { s.requestExit none with state := { st with env := st.env.pushScope } }

/-- The scope, the functions and the aliases of the parent again. -/
def leaveSubshell (saved t : Runtime W) : Runtime W :=
  { t.requestExit none with
    state := { t.state with env := t.state.env.popScope }
    functions := saved.functions
    aliases := saved.aliases
    trace := { t.trace with declared := saved.trace.declared } }

/-- The body of a subshell and its EXIT trap; the status is that of the body. -/
def subshellBody (body : List CompleteCommand) (s : Runtime W) : Run W (Runtime W) := do
  let t ← r.executeBody body s
  let status := t.exec.exitRequested.getD t.state.lastStatus
  let (events, t) ← runExitTrapIfNeeded r false ((t.requestExit none).setStatus status)
  return (mergeSubEvents h t events).setStatus status

/-- The subshell arm of `execute_command_body`. -/
def executeSubshell (body : List CompleteCommand) (s : Runtime W) : Run W (Runtime W) := do
  let t ← subshellBody h r body (enterSubshell s)
  let t ← restoreTrap "_TRAP_EXIT" (s.state.getVar "_TRAP_EXIT") (leaveSubshell s t)
  let t ← restoreTrap "_TRAP_IGNORE_EXIT" (s.state.getVar "_TRAP_IGNORE_EXIT") t
  return t.requestExit s.exec.exitRequested

/-- `execute_command_body`. -/
def executeCommandBody (cmd : Command) (s : Runtime W) : Run W (Runtime W) :=
  match cmd with
  | .exec e => executeExec h r e s
  | .assign as redirs => do
    let s ← executeAssignments h r as { s with lastSubstStatus := none }
    let (redirs, s) ← resolveRedirections h r redirs s
    let s ← s.applyEffect h false (h.applyRedirections redirs s.state s.world)
    return { s with lastSubstStatus := none }.setStatus (s.lastSubstStatus.getD 0)
  | .ifCmd c redirs => withRedirections h r redirs (executeIf r c) s
  | .whileLoop c redirs => withRedirections h r redirs (whileTurn r false c false 0) s
  | .untilLoop c redirs => withRedirections h r redirs (whileTurn r true c false 0) s
  | .forLoop c redirs => withRedirections h r redirs (executeForLoop h r c) s
  | .group body redirs => withRedirections h r redirs (r.executeBody body) s
  | .subshell body redirs => withRedirections h r redirs (executeSubshell h r body) s
  | .caseCmd word items redirs => withRedirections h r redirs (executeCase h r word items) s
  | .functionDef name body =>
    .ok ({ s with functions := insert s.functions name body }.setStatus 0)
  | .redirectOnly redirs => do
    let (redirs, s) ← resolveRedirections h r redirs s
    let s ← s.applyEffect h false (h.applyRedirections redirs s.state s.world)
    return s.setStatus 0
  | .doubleBracket words => do
    let tested := h.evalDoubleBracket words s.state s.world
    let s ← s.applyEffect h false tested.1
    return s.setStatus (if tested.2 then 0 else 1)
  | .arithCommand expr => do
    let value := h.evalArithmetic expr s.state
    let s ← s.applyOps value.1
    return s.setStatus (if value.2 = 0 then 1 else 0)
  | .arithFor c redirs => withRedirections h r redirs (executeArithFor h r c) s
  | .select c redirs => executeSelect h r c redirs s

/-- `execute_command`. -/
def executeCommand (cmd : Command) (s : Runtime W) : Run W (Runtime W) := do
  let s ← runDebugTrapIfNeeded h r s
  executeCommandBody h r cmd s

end Interp

end Wasmsh

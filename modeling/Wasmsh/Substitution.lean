import Wasmsh.Expansion

/-!
# Traps, the VM subset, substitutions

The functions of `wasmsh-runtime/src/lib.rs` that walk the program tree call each other
in every direction (a body runs commands, a command may call a function whose body is a
command, `eval` parses a text and runs it).  Each is a definition of its own that takes
the functions it re-enters as an argument `r : Recs W P`; `Wasmsh.Interpreter` ties the
knot.  Loops without a bound of their own (`while`, `until`, the arithmetic `for`, the
scheduler of a pipeline) go through `r` for each turn.

This module has the parts that every command can reach: trap handlers, the end of an
and/or list, the lists that the VM executes, isolated runs and what uses them, and
assignments and redirections.  Process substitutions and diagnostics are left out, and the
command substitutions in the words of `[[ ]]` and in here-documents are not run: what the
host says of `eval_double_bracket` and of the input of a command stands for them.
-/

namespace Wasmsh

open Hir IndexMap

/-- Output that `execute_input_inner` hands back as events: stdout (`true`) or stderr. -/
abbrev Drained := List (Bool × List Char)

/-- The functions the interpreter re-enters. -/
structure Recs (W P : Type) where
  executeBody : List CompleteCommand → Runtime W → Run W (Runtime W)
  executeCommand : Command → Runtime W → Run W (Runtime W)
  executeArgvCommand : List String → Runtime W → Run W (Runtime W)
  /-- `resolve_command_without_functions` and `execute_resolved_command`. -/
  executeWithoutFunctions : List String → Runtime W → Run W (Runtime W)
  executeInputInner : String → Runtime W → Run W (Drained × Runtime W)
  /-- One more turn of `execute_while_loop` (`false`) or `execute_until_loop`. -/
  whileTurn : Bool → Loop → Bool → Int → Runtime W → Run W (Runtime W)
  arithForTurn : ArithFor → Bool → Int → Runtime W → Run W (Runtime W)
  /-- One more turn of `drive_streaming_pipeline`, with the finished processes. -/
  drive : List PipelineStage → List Bool → P → List Bool → Runtime W → Run W (P × Runtime W)

namespace Interp

variable {W P : Type} (h : Host W P) (r : Recs W P)

/-! ## 1. Traps and sub-events -/

/-- `merge_sub_events` and `merge_sub_events_with_diagnostics`. -/
def mergeSubEvents (s : Runtime W) (events : Drained) : Runtime W :=
  events.foldl (fun s e => s.write h e.1 e.2) s

/-- `run_trap_and_merge`, for the status every caller gives it. -/
def runTrapAndMerge (handlerVar ignoreVar : String) (s : Runtime W) : Run W (Runtime W) :=
  match s.trapHandler handlerVar ignoreVar with
  | none => .ok s
  | some handler => do
    let (events, t) ← r.executeInputInner handler s.enterTrap
    let t := mergeSubEvents h t.leaveTrap events
    if !t.exec.resourceExhausted && t.exec.exitRequested == s.exec.exitRequested then
      return t.setStatus s.state.lastStatus
    else return t

def runDebugTrapIfNeeded (s : Runtime W) : Run W (Runtime W) :=
  if s.trapsQuiet then .ok s else runTrapAndMerge h r "_TRAP_DEBUG" "_TRAP_IGNORE_DEBUG" s

def runReturnTrapIfNeeded (s : Runtime W) : Run W (Runtime W) :=
  if s.trapsQuiet then .ok s else runTrapAndMerge h r "_TRAP_RETURN" "_TRAP_IGNORE_RETURN" s

def runErrTrapIfNeeded (l : AndOr) (s : Runtime W) : Run W (Runtime W) :=
  if s.shouldRunErrTrap l then runTrapAndMerge h r "_TRAP_ERR" "_TRAP_IGNORE_ERR" s else .ok s

/-- `run_exit_trap_if_needed`, with the events it appends. -/
def runExitTrapIfNeeded (endedNormally : Bool) (s : Runtime W) : Run W (Drained × Runtime W) :=
  if 0 < s.exec.trapDepth then .ok ([], s)
  else match s.trapHandler "_TRAP_EXIT" "_TRAP_IGNORE_EXIT" with
    | none => .ok ([], s)
    | some handler =>
      if endedNormally && s.exec.exitTrapAtRunStart == some handler then .ok ([], s)
      else do
        let exitCode := s.exec.exitRequested.getD s.state.lastStatus
        let (events, t) ←
          r.executeInputInner handler ((s.requestExit none).setStatus exitCode).enterTrap
        let code := t.exec.exitRequested.getD exitCode
        return (events, (t.leaveTrap.requestExit (some code)).setStatus code)

/-- `handle_post_and_or`. -/
def handlePostAndOr (l : AndOr) (s : Runtime W) : Run W (Runtime W) := do
  let t ← runErrTrapIfNeeded h r l s
  if t.shouldErrexit l then return t.requestExit (some t.state.lastStatus)
  else return t

/-! ## 2. The VM subset -/

/-- `text_has_brace_or_glob_literal`. -/
def textHasBraceOrGlobLiteral (t : List Char) : Bool :=
  t.any fun c => c == '\x7b' || c == '\x7d' || c == '*' || c == '?' || c == '['

/-- `is_multi_field_parameter`. -/
def isMultiFieldParameter (name : List Char) : Bool :=
  name == ['@'] ||
    match Expand.afterAllElements name with
    | some [] => true
    | some (c :: _) => c == ':'
    | none => false

/-- A text with `$(` or a backquote in it. -/
def mentionsSubst : List Char → Bool
  | '$' :: '(' :: _ => true
  | '`' :: _ => true
  | _ :: cs => mentionsSubst cs
  | [] => false

mutual

/-- `vm_supported_word_part`. -/
def vmSupportedWordPart : WordPart → Bool
  | .literal _ => true
  | .singleQuoted _ => true
  | .parameter _ => true
  | .arithmetic e => !mentionsSubst e
  | .doubleQuoted ps => vmSupportedWordParts ps
  | _ => false

def vmSupportedWordParts : List WordPart → Bool
  | [] => true
  | p :: ps => vmSupportedWordPart p && vmSupportedWordParts ps

end

mutual

/-- `quoted_part_is_multi_field`. -/
def quotedPartIsMultiField : WordPart → Bool
  | .parameter n => isMultiFieldParameter n
  | .doubleQuoted ps => quotedPartsAreMultiField ps
  | _ => false

def quotedPartsAreMultiField : List WordPart → Bool
  | [] => false
  | p :: ps => quotedPartIsMultiField p || quotedPartsAreMultiField ps

end

/-- `vm_word_part_requires_full_shell_execution`. -/
def vmWordPartRequiresFull : WordPart → Bool
  | .literal t => textHasBraceOrGlobLiteral t
  | .singleQuoted _ => false
  | .doubleQuoted ps => quotedPartsAreMultiField ps
  | .parameter n => isMultiFieldParameter n
  | _ => true

/-- `vm_supported_word`. -/
def vmSupportedWord (w : Word) : Bool := vmSupportedWordParts w.parts

/-- `vm_supported_redirection`. -/
def vmSupportedRedirection (d : Redirection) : Bool :=
  (d.op == .output || d.op == .append) && d.fd.getD 1 == 1 && d.hereDocBody.isNone &&
    vmSupportedWord d.target

/-- `vm_supported_assignment_name`. -/
def vmSupportedAssignmentName (name : String) : Bool :=
  !name.toList.contains '[' && name.toList.getLast? != some '+'

/-- `resolve_runtime_command`. -/
def resolveRuntimeCommand (name : String) : Option RuntimeCommandKind :=
  [("local", .local_), ("break", .break_), ("continue", .continue_), ("return", .return_),
    ("exit", .exit_), ("eval", .eval), ("source", .source), (".", .source),
    ("declare", .declare), ("typeset", .declare), ("let", .let_), ("shopt", .shopt),
    ("alias", .alias), ("unalias", .unalias), ("builtin", .builtinKeyword),
    ("mapfile", .mapfile), ("readarray", .mapfile), ("type", .type),
    ("command", .commandKeyword), ("exec", .execKeyword), ("hash", .hash),
    ("times", .times), ("dirs", .dirs), ("pushd", .pushd), ("popd", .popd),
    ("umask", .umask), ("wait", .wait), ("ulimit", .ulimit)].lookup name

/-- `ResolvedCommand`. -/
inductive ResolvedCommand where
  | runtime (kind : RuntimeCommandKind)
  | shellScript
  | shebangScript
  | function (body : Command)
  | builtin
  | utility
  | external

/-- `resolve_command_without_functions`. -/
def resolveCommandWithoutFunctions (name : String) : ResolvedCommand :=
  match resolveRuntimeCommand name with
  | some kind => .runtime kind
  | none =>
    if name = "bash" ∨ name = "sh" then .shellScript
    else if h.isBuiltin name then .builtin
    else if h.isUtility name then .utility
    else .external

/-- `resolve_command`. -/
def resolveCommand (s : Runtime W) (name : String) : ResolvedCommand :=
  match resolveRuntimeCommand name with
  | some kind => .runtime kind
  | none =>
    if name = "bash" ∨ name = "sh" then .shellScript
    else match get s.functions name with
      | some body => .function body
      | none => resolveCommandWithoutFunctions h name

/-- Whether a word resolves to a builtin, for `validate_vm_subset_exec`. -/
def isBuiltinCommand (s : Runtime W) (name : String) : Bool :=
  match resolveCommand h s name with
  | .builtin => true
  | _ => false

/-- `validate_vm_subset_command`, with the checks of an assignment and of a simple
    command. -/
def validateVmSubsetCommand (s : Runtime W) : Command → Bool
  | .assign as redirs =>
    redirs.isEmpty && as.all (fun a => vmSupportedAssignmentName a.name) &&
      as.all (fun a => a.value.all vmSupportedWord)
  | .exec e =>
    e.env.isEmpty && !e.argv.isEmpty && e.argv.all vmSupportedWord &&
      e.redirections.all vmSupportedRedirection && !s.state.flag "SHOPT_x" &&
      !e.argv.any (fun w => w.parts.any vmWordPartRequiresFull) &&
      match e.argv.head?.bind Ir.literalWordText with
      | none => false
      | some name =>
        !(s.state.flag "SHOPT_expand_aliases" && contains s.aliases name) &&
          isBuiltinCommand h s name
  | _ => false

/-- `validate_vm_subset_pipeline`. -/
def validateVmSubsetPipeline (s : Runtime W) (p : Pipeline) : Bool :=
  !p.timed && !p.timePosix && !p.negated &&
    match p.commands with
    | [c] => validateVmSubsetCommand h s c
    | _ => false

/-- `lower_vm_subset_and_or`. -/
def lowerVmSubsetAndOr (s : Runtime W) (l : AndOr) : Option (List Ir) :=
  if s.vmSubsetEnabled && validateVmSubsetPipeline h s l.first &&
      l.rest.all (fun m => validateVmSubsetPipeline h s m.2) then
    Ir.lowerSupportedAndOr l
  else none

/-- `expand_word` on the value of an assignment. -/
def expandValue (value : Option Word) (s : Runtime W) : Run W (String × Runtime W) :=
  match value with
  | none => .ok ("", s)
  | some w => do
    let expanded := h.expandWord w s.state
    let s ← s.applyOps expanded.1
    return (expanded.2, s)

/-- `eval_arithmetic` as the text of its value. -/
def evalInteger (text : String) (s : Runtime W) : Run W (String × Runtime W) := do
  let value := h.evalArithmetic text s.state
  let s ← s.applyOps value.1
  return (toString value.2, s)

/-- Whether the variable is declared integer. -/
def isInteger (s : Runtime W) (name : String) : Bool := (s.state.env.get name).any (·.integer)

/-- The text of a scalar assignment of the VM. -/
def vmScalarValue (name value : String) (s : Runtime W) : Run W (String × Runtime W) :=
  if isInteger s name then evalInteger h (String.ofList (trim value.toList)) s
  else .ok (value, s)

/-- The write of `RuntimeVmExecutor::assign`. -/
def vmAssignValue (name value : String) (s : Runtime W) : Run W (Runtime W) :=
  match compoundBody value with
  | some inner => s.applyOps (assignCompoundArray name inner false)
  | none => do
    let (assigned, s) ← vmScalarValue h name value s
    s.setVar name assigned

/-- The value of an assignment of the VM, and whether its expansion failed. -/
def vmExpandValue (value : Option Word) (s : Runtime W) : Run W (Bool × String × Runtime W) := do
  let (value, t) ← expandValue h value s.enterChecked
  let checked := t.consumeErrors h
  return (checked.1, value, Runtime.leaveChecked s checked.2)

/-- The error of an assignment to a readonly variable, set and consumed at once. -/
def vmReadonlyError (name : String) (s : Runtime W) : Run W (Runtime W) := do
  let error := ShellVar.ofScalar (name ++ ": readonly variable")
  let t ← s.enterChecked.applyOps [.setEntry "_SHELL_ERROR" error]
  return Runtime.leaveChecked s (t.expansionError (Runtime.writeVisibleStderr h)).2

/-- `RuntimeVmExecutor::assign`. -/
def vmAssign (name : String) (value : Option Word) (s : Runtime W) : Run W (Runtime W) := do
  let (failed, value, s) ← vmExpandValue h value s
  if failed then return s
  else if s.state.isVarReadonly name then
    let s ← vmReadonlyError h name s
    return s.setStatus 1
  else
    let s ← vmAssignValue h name value s
    return s.setStatus 0

/-- `expand_word` on the words of a builtin, one after the other. -/
def vmExpandWords : List Word → Runtime W → Run W (List String × Runtime W)
  | [], s => .ok ([], s)
  | w :: ws, s => do
    let (arg, s) ← expandValue h (some w) s
    let (args, s) ← vmExpandWords ws s
    return (arg :: args, s)

/-- The arguments of a builtin of the VM, unless an expansion failed. -/
def vmExpandArgv (words : List Word) (s : Runtime W) :
    Run W (Option (List String) × Runtime W) := do
  let (argv, t) ← vmExpandWords h words s.enterChecked
  let checked := t.consumeErrors h
  return (if checked.1 then none else some argv, Runtime.leaveChecked s checked.2)

/-- `RuntimeVmExecutor::execute_builtin`. -/
def vmExecuteBuiltin (name : String) (words : List Word) (redirs : List Redirection)
    (s : Runtime W) : Run W (Runtime W) := do
  let (argv, s) ← vmExpandArgv h words s
  match argv with
  | none => return s
  | some argv =>
    (s.record (.dispatch argv)).applyEffect h true
      (h.vmExecuteBuiltin name argv redirs s.state s.world)

/-- `run_with_executor` from `pc` on; the stop of an exhausted budget is not looked at
    by the caller.  `fuel` bounds the number of instructions executed. -/
def runWithExecutor (code : List Ir) : Nat → Nat → Runtime W → Run W (Runtime W)
  | fuel, pc, s =>
    match code[pc]? with
    | none => .ok s
    | some i =>
      let step := s.vm.beginStep
      let s := { s with vm := step.2 }
      if !step.1 then .ok s
      else match fuel with
        | 0 => .error s
        | fuel + 1 =>
          match i with
          | .assign name value => do
            let s ← vmAssign h name value (s.record (.assign name))
            runWithExecutor code fuel (pc + 1) s
          | .executeBuiltin name argv redirs => do
            let s ← vmExecuteBuiltin h name argv redirs s
            runWithExecutor code fuel (pc + 1) s
          | .jumpIfFailure target =>
            if s.state.lastStatus ≠ 0 then runWithExecutor code fuel target s
            else runWithExecutor code fuel (pc + 1) s
          | .jumpIfSuccess target =>
            if s.state.lastStatus = 0 then runWithExecutor code fuel target s
            else runWithExecutor code fuel (pc + 1) s
          | .returnLastStatus => .ok s
          | .ret status => .ok (s.setStatus status)
          | .nop => runWithExecutor code fuel (pc + 1) s

/-- `execute_ir_program`; the programs have forward jumps only. -/
def executeIrProgram (code : List Ir) (s : Runtime W) : Run W (Runtime W) :=
  runWithExecutor h code code.length 0 s

/-! ## 3. Isolated runs and substitutions -/

/-- The options that a new shell does not inherit. -/
def newShellOptions : List String :=
  ["SHOPT_a", "SHOPT_e", "SHOPT_E", "SHOPT_T", "SHOPT_C", "SHOPT_f", "SHOPT_n", "SHOPT_u",
    "SHOPT_o_pipefail", "SHOPT_p", "SHOPT_v", "SHOPT_x"]

def unsetVars (names : List String) (st : ShellState) : ShellState :=
  names.foldl ShellState.unsetVar st

/-- `reset_set_options_for_new_shell`. -/
def resetSetOptionsForNewShell (s : Runtime W) : Runtime W :=
  { s with state := unsetVars newShellOptions s.state }

/-- `merge_isolated_inner_events`: an inner event only where the capture has none. -/
def mergeIsolatedEvents (captured : OutputCapture) (inner : Drained) : Drained :=
  let seed := (if captured.stdout.isEmpty then [] else [(true, captured.stdout)]) ++
    (if captured.stderr.isEmpty then [] else [(false, captured.stderr)])
  inner.foldl (fun events e => if events.any (·.1 == e.1) then events else events ++ [e]) seed

/-- The state in which `execute_isolated_input_events_full` runs its text. -/
def enterIsolated (enter : W → W) (newProcess : Bool) (s : Runtime W) : Runtime W :=
  let t := { s with
    world := enter s.world
    vm := { s.vm with stdout := [], stderr := [] } }
  let t := if newProcess then resetSetOptionsForNewShell t else t
  (t.pushCapture true true).enterNested

/-- What `execute_isolated_input_events_full` restores. -/
def leaveIsolated (saved t : Runtime W) : Runtime W :=
  { t with
    state := saved.state
    functions := saved.functions
    aliases := saved.aliases
    exec := { saved.exec with
      resourceExhausted := saved.exec.resourceExhausted || t.exec.resourceExhausted }
    world := h.leaveExecIo saved.world t.world
    vm := { t.vm with
      stdout := saved.vm.stdout
      stderr := saved.vm.stderr
      outputBytes := saved.vm.outputBytes
      budget := { t.vm.budget with visibleOutputBytes := saved.vm.outputBytes } }
    lastSubstStatus := some t.state.lastStatus
    trace := { t.trace with
      leaks := saved.trace.leaks
      declared := saved.trace.declared } }

/-- `sh -x`. -/
def setXtrace (xtrace : Bool) (s : Runtime W) : Run W (Runtime W) :=
  if xtrace then s.setVar "SHOPT_x" "1" else .ok s

/-- `execute_isolated_input_events_full`. -/
def executeIsolated (input : String) (enter : W → W) (newProcess xtrace : Bool)
    (s : Runtime W) : Run W (Drained × Runtime W) := do
  let t ← setXtrace xtrace (enterIsolated enter newProcess s)
  let (events, t) ← r.executeInputInner input t
  let (trapEvents, t) ← runExitTrapIfNeeded r false t
  return (mergeIsolatedEvents t.leaveNested.popCapture.1 (events ++ trapEvents),
    leaveIsolated h s t)

/-- The text without its trailing newlines. -/
def trimEndNewlines (t : List Char) : List Char := (t.reverse.dropWhile (· == '\n')).reverse

/-- `execute_subst`. -/
def executeSubst (inner : List Char) (s : Runtime W) : Run W (List Char × Runtime W) := do
  let (events, t) ← executeIsolated h r (String.ofList inner) h.enterSubst false false s
  let out := (events.filter (·.1)).flatMap (·.2)
  return (trimEndNewlines out, mergeSubEvents h t (events.filter (!·.1)))

/-- Run substitutions in order. -/
def executeSubsts : List (List Char) → Runtime W → Run W (List (List Char) × Runtime W)
  | [], s => .ok ([], s)
  | inner :: rest, s => do
    let (out, s) ← executeSubst h r inner s
    let (outs, s) ← executeSubsts rest s
    return (out :: outs, s)

/-- One part of a word in `resolve_command_subst`, outside double quotes or inside. -/
def resolvePart (p : WordPart) (s : Runtime W) : Run W (WordPart × Runtime W) :=
  match p with
  | .commandSubstitution inner => do
    let (out, s) ← executeSubst h r inner s
    return (.literal out, s)
  | .arithmetic e => do
    let (outs, s) ← executeSubsts h r (h.arithSubsts e) s
    return (.arithmetic (h.resolveArith e outs), s)
  | p => .ok (p, s)

def resolveParts : List WordPart → Runtime W → Run W (List WordPart × Runtime W)
  | [], s => .ok ([], s)
  | .doubleQuoted ps :: rest, s => do
    let (ps, s) ← resolveQuoted ps s
    let (rest, s) ← resolveParts rest s
    return (.doubleQuoted ps :: rest, s)
  | p :: rest, s => do
    let (p, s) ← resolvePart h r p s
    let (rest, s) ← resolveParts rest s
    return (p :: rest, s)
where
  /-- The parts inside double quotes, which hold no further double quotes. -/
  resolveQuoted : List WordPart → Runtime W → Run W (List WordPart × Runtime W)
    | [], s => .ok ([], s)
    | p :: rest, s => do
      let (p, s) ← resolvePart h r p s
      let (rest, s) ← resolveQuoted rest s
      return (p :: rest, s)

/-- `resolve_command_subst`. -/
def resolveCommandSubst : List Word → Runtime W → Run W (List Word × Runtime W)
  | [], s => .ok ([], s)
  | w :: ws, s => do
    let (parts, s) ← resolveParts h r w.parts s
    let (ws, s) ← resolveCommandSubst ws s
    return (⟨parts⟩ :: ws, s)

/-- The targets of redirections with their substitutions replaced. -/
def resolveRedirections : List Redirection → Runtime W → Run W (List Redirection × Runtime W)
  | [], s => .ok ([], s)
  | d :: ds, s => do
    let (parts, s) ← resolveParts h r d.target.parts s
    let (ds, s) ← resolveRedirections ds s
    return ({ d with target := ⟨parts⟩ } :: ds, s)

/-! ## 4. Assignments and redirections -/

/-- The value of an assignment with its substitutions replaced. -/
def resolveValue (value : Option Word) (s : Runtime W) : Run W (Option Word × Runtime W) :=
  match value with
  | none => .ok (none, s)
  | some w => do
    let (parts, s) ← resolveParts h r w.parts s
    return (some ⟨parts⟩, s)

/-- `expand_assignment_value`. -/
def expandAssignmentValue (value : Option Word) (s : Runtime W) : Run W (String × Runtime W) := do
  let (value, s) ← resolveValue h r value s
  expandValue h value s

/-- `resolve_scalar_assignment_value` with `eval_integer_assignment`. -/
def resolveScalarAssignmentValue (name value : String) (isAppend : Bool) (s : Runtime W) :
    Run W (String × Runtime W) :=
  let old := (s.state.getVar name).getD ""
  if isInteger s name then evalInteger h (if isAppend then old ++ "+" ++ value else value) s
  else .ok (if isAppend then old ++ value else value, s)

/-- The write of `execute_assignment` to a name without an index. -/
def assignValue (name value : String) (isAppend : Bool) (s : Runtime W) : Run W (Runtime W) :=
  match compoundBody value with
  | some inner => s.applyOps (assignCompoundArray name inner isAppend)
  | none => do
    let (value, s) ← resolveScalarAssignmentValue h name value isAppend s
    s.setVar name value

/-- `execute_assignment`; the value of a readonly variable is not even expanded. -/
def executeAssignment (a : Assignment) (s : Runtime W) : Run W (Runtime W) :=
  let target := splitAssignmentName a.name
  if s.state.isVarReadonly target.1 then
    .ok (((s.record (.assign a.name)).writeStderr h
      ("wasmsh: " ++ target.1 ++ ": readonly variable\n")).setStatus 1)
  else match parseArrayElementAssignment target.1 with
    | some (base, index) => do
      let (value, s) ← expandAssignmentValue h r a.value s
      (s.record (.assign a.name)).applyOps [.setArrayElement base index value]
    | none => do
      let (value, s) ← expandAssignmentValue h r a.value s
      assignValue h target.1 value target.2 (s.record (.assign a.name))

def executeAssignments : List Assignment → Runtime W → Run W (Runtime W)
  | [], s => .ok s
  | a :: as, s => do
    let s ← executeAssignment h r a s
    executeAssignments as s

/-- `execute_compound_with_redirections`; a redirection that fails ends the command. -/
def withRedirections (redirs : List Redirection) (f : Runtime W → Run W (Runtime W))
    (s : Runtime W) : Run W (Runtime W) :=
  if redirs.isEmpty then f s
  else do
    let (redirs, s) ← resolveRedirections h r redirs s
    let prepared := h.prepareExecIo redirs s.state s.world
    let t ← s.applyEffect h false prepared.1
    if prepared.2 then do
      let t ← f t
      return { t with world := h.leaveExecIo s.world t.world }
    else return t

/-- `save_prefix_assignment_targets`: the base name of each prefix assignment and the
    entry it will shadow. -/
def savePrefixAssignmentTargets (s : Runtime W) (env : List Assignment) :
    List (String × Option ShellVar) :=
  env.map fun a =>
    let raw := a.name.toList
    let raw := if raw.getLast? = some '+' then raw.dropLast else raw
    let base := String.ofList (raw.takeWhile (· != '['))
    (base, s.state.env.get base)

/-- `promoted_prefix_names`. -/
def promotedPrefixNames (argv : List String) : List String :=
  let names := (argv.drop 1).filter (fun a => a.toList.head? != some '-') |>.map
    (fun a => String.ofList (a.toList.takeWhile (· != '=')))
  let promote := match argv.head? with
    | some "export" => true
    | some "readonly" => true
    | some "declare" => (argv.drop 1).any declareFlag
    | some "typeset" => (argv.drop 1).any declareFlag
    | _ => false
  if promote then names.filter (fun n => n ≠ "" && n.toList.all isNameByte) else []
where
  declareFlag (a : String) : Bool :=
    match a.toList with
    | '-' :: cs => cs.any (fun c => c == 'x' || c == 'r')
    | _ => false

/-- `restore_prefix_assignments`. -/
def restorePrefixAssignments (saves : List (String × Option ShellVar)) (argv : List String)
    (s : Runtime W) : Runtime W :=
  let restored := (saves.filter fun e => !(promotedPrefixNames argv).contains e.1).foldl
    (fun st e => match e.2 with
      | some v => st.setEntry e.1 v
      | none => st.unsetVar e.1) s.state
  let raised := !s.trace.checking && s.state.quiet && !restored.quiet
  { s with
    state := restored
    trace := { s.trace with raised := s.trace.raised + raised.toNat } }

end Interp

end Wasmsh

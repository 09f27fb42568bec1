import Wasmsh.Vm

/-!
# The runtime's state and its primitive operations

`wasmsh-runtime/src/lib.rs`, `WorkerRuntime` as the interpreter uses it: shell state,
budget, functions and aliases, and `ExecState`, the flags by which `break`, `continue`,
`return`, `exit`, errexit and the resource limits are passed between the functions that
walk the program tree.

Words, builtins, utilities, external commands and the filesystem are the host's: a
`Host` gives for each call what it writes to the shell state (a list of `StateOp`), to
the output streams and to the rest of the world `W`.  What the interpreter itself reads
and writes is explicit.

Beside the source's state a runtime carries a `Trace`, which no operation of the source
reads: the commands dispatched so far, the loop variables set, the ends of and/or lists
with the context they were evaluated in.
-/

namespace Wasmsh

open Hir IndexMap

/-! ## 1. State -/

/-- `OutputCapture`. -/
structure OutputCapture where
  captureStdout : Bool
  captureStderr : Bool
  stdout : List Char
  stderr : List Char
  deriving DecidableEq, Repr

/-- `ExecState`, less the fields nothing reads (`expansion_failed`, `recursion_depth`). -/
structure ExecState where
  breakDepth : Nat
  loopContinue : Bool
  returnRequested : Option Int
  exitRequested : Option Int
  errexitSuppressed : Bool
  localSaveStack : List (String × Option String)
  resourceExhausted : Bool
  stopReason : Option StopReason
  trapDepth : Nat
  nestedShellDepth : Nat
  /-- Innermost capture first. -/
  outputCaptures : List OutputCapture
  exitTrapAtRunStart : Option String
  deriving DecidableEq, Repr

/-- `ExecState::new`. -/
def ExecState.new : ExecState where
  breakDepth := 0
  loopContinue := false
  returnRequested := none
  exitRequested := none
  errexitSuppressed := false
  localSaveStack := []
  resourceExhausted := false
  stopReason := none
  trapDepth := 0
  nestedShellDepth := 0
  outputCaptures := []
  exitTrapAtRunStart := none

/-- What the trace records. -/
inductive Event where
  | dispatch (argv : List String)
  | assign (name : String)
  | loopVar (name value : String)
  | iteration
  /-- `local` run through `builtin`, which saves nothing. -/
  | builtinLocal (names : List String)
  deriving DecidableEq, Repr

/-- The names that are declared without being saved. -/
def Event.declares : Event → List String
  | .builtinLocal names => names
  | _ => []

structure Trace where
  /-- Newest event first. -/
  log : List Event
  /-- Where writes have reached outside the innermost scope, newest first, as far as
      nothing has put it back. -/
  leaks : List Leak
  /-- The running expansion is followed by a check of the pending errors. -/
  checking : Bool
  /-- How often an error was left pending without a check, or after one. -/
  raised : Nat
  /-- The names declared through `builtin local`, newest first, as far as nothing has
      put the variables back. -/
  declared : List String
  deriving DecidableEq, Repr

def Trace.new : Trace := ⟨[], [], false, 0, []⟩

/-- The names declared through `builtin local` since `saved`. -/
def Trace.declaredSince (saved t : Trace) : List String :=
  t.declared.take (t.declared.length - saved.declared.length)

/-- What the trace has noted of leaks since `saved`, newest first. -/
def Trace.leaksSince (saved t : Trace) : List Leak :=
  t.leaks.take (t.leaks.length - saved.leaks.length)

/-- The positional parameters are put back: the writes to them since `saved` are
    undone. -/
def Trace.dropPositional (saved t : Trace) : Trace :=
  { t with leaks := (saved.leaksSince t).filter (· ≠ .positional) ++ saved.leaks }

/-- `WorkerRuntime`, with `W` for the filesystem, the redirections in force and what
    else belongs to the host. -/
structure Runtime (W : Type) where
  state : ShellState
  world : W
  vm : Vm
  exec : ExecState
  functions : Map String Command
  aliases : Map String String
  lastSubstStatus : Option Int
  vmSubsetEnabled : Bool
  allowExternalStreaming : Bool
  trace : Trace

/-- A computation of the runtime.  The error is no error of the source: it is the state
    reached when the bound on the depth of the computation ran out, or when the source
    recurses for ever or panics at that state. -/
abbrev Run (W α : Type) := Except (Runtime W) α

/-- What a call of the host does. -/
structure Effect (W : Type) where
  ops : List StateOp
  world : W
  /-- Writes in order, to stdout (`true`) or stderr. -/
  writes : List (Bool × List Char)
  /-- A fatal expansion error inside the call asks the shell to exit. -/
  exit : Option Int

/-- The answers of a pipeline process to a poll.  `runCommand`: a buffered stage has
    read its whole input and its command runs now. -/
inductive PipeProcessPoll where
  | ready
  | pending
  | exited
  | runCommand
  deriving DecidableEq, Repr

/-- `StreamingPipelineStage`, as far as the scheduler tells stages apart. -/
inductive PipelineStage where
  | native (argv : List String)
  | external (argv : List String)
  | bufferedArgv (argv : List String)
  | bufferedHir (cmd : Command)

/-- `RuntimeCommandKind`. -/
inductive RuntimeCommandKind where
  | local_ | break_ | continue_ | return_ | exit_ | eval | source | declare | let_ | shopt
  | alias | unalias | builtinKeyword | mapfile | type | commandKeyword | execKeyword | hash
  | times | dirs | pushd | popd | umask | wait | ulimit
  deriving DecidableEq, Repr

/-- `current`, `out` and `quoted_seen` of `split_for_word`. -/
structure ForFields where
  current : List Char
  out : List (List Char)
  quotedSeen : Bool
  deriving DecidableEq, Repr

/-- What the interpreter calls and does not contain: the parser, the expansion of
    words, builtins, utilities, external commands, files and the processes of a
    pipeline (`P`). -/
structure Host (W P : Type) where
  parse : String → Except String Program
  /-- `expand_words_argv` with brace and pathname expansion; no result when the words
      expand to nothing. -/
  expandArgv : List Word → ShellState → W → List StateOp × Option (List String)
  /-- A part in `split_for_parts`, outside double quotes or inside, with its output when it
      is a command substitution. -/
  splitForPart : (ifs : List Char) → (quoted : Bool) → WordPart → (out : List Char) →
    ForFields → ShellState → List StateOp × ForFields
  /-- `expand_braces` and `expand_globs` on the fields of a `for` list. -/
  expandGlobs : List String → ShellState → W → List String
  expandWord : Word → ShellState → List StateOp × String
  evalArithmetic : String → ShellState → List StateOp × Int
  /-- The substitutions inside an arithmetic expression, and the expression with their
      outputs (`resolve_arith_command_subst`). -/
  arithSubsts : List Char → List (List Char)
  resolveArith : List Char → List (List Char) → List Char
  globMatch : (nocase : Bool) → (pattern value : String) → Bool
  evalDoubleBracket : List Word → ShellState → W → Effect W × Bool
  /-- `apply_redirections` of a command without words. -/
  applyRedirections : List Redirection → ShellState → W → Effect W
  /-- `prepare_exec_io`; `false` is the error.  The new world has the redirections in
      force. -/
  prepareExecIo : List Redirection → ShellState → W → Effect W × Bool
  /-- The end of `with_exec_io_scope`: the redirections of the first world again. -/
  leaveExecIo : W → W → W
  /-- Where `current_exec_io` sends a write: a stream, or a sink of its own. -/
  redirect : W → (stdout : Bool) → List Char → Option Bool × W
  isBuiltin : String → Bool
  isUtility : String → Bool
  callBuiltin : List String → ShellState → W → Effect W
  /-- `call_utility`, with the commands awk-style pipes feed and what they are fed. -/
  callUtility : List String → ShellState → W → Effect W × List (String × List Char)
  callExternal : List String → ShellState → W → Effect W
  /-- The runtime commands that only read and write state and streams. -/
  runtimeCommand : RuntimeCommandKind → List String → ShellState → W → Effect W
  /-- `RuntimeVmExecutor::execute_builtin`. -/
  vmExecuteBuiltin : String → List String → List Redirection → ShellState → W → Effect W
  /-- The resolved path and the text of a script file. -/
  readScript : String → ShellState → W → Option (String × String) × W
  /-- `detect_shell_shebang`. -/
  detectShellShebang : String → ShellState → W → Option String × W
  /-- The redirections of an isolated run: none, a child shell's inherited stdin, or
      given input. -/
  enterSubst : W → W
  enterChild : W → W
  enterInput : List Char → W → W
  /-- `extract_find_exec` and the flag scan of `xargs`: whether the output of the
      utility is a list of command lines, the utility's own arguments, and the lines. -/
  commandLines : List String → Option (List String × (List Char → List String))
  /-- The lines `select` reads. -/
  selectInput : W → List String × W
  /-- `parse_streaming_first_stage` and `parse_streaming_internal_stage`. -/
  isNativeStage : List String → (first : Bool) → Bool
  hasExternalSpec : String → Bool
  hasStreamHandler : Bool
  isBufferedStageCandidate : String → Bool
  /-- A single native stage; no result for one that cannot stand alone. -/
  runNativeStage : List String → ShellState → W → Option (Effect W × Int)
  pipelineTiming : W → (posix : Bool) → List Char
  /-- The processes and pipes of a pipeline with several stages. -/
  startPipeline : List PipelineStage → List Bool → ShellState → W → P × W
  pollProcess : P → Nat → ShellState → W → PipeProcessPoll × P × W
  /-- A buffered stage gets what its command wrote and its status. -/
  commandDone : P → Nat → OutputCapture → Int → PipeProcessPoll × P
  bufferedPipeBytes : P → Nat
  /-- The chunks `drain_final_pipe_to_stdout` reads. -/
  drainFinalPipe : P → List (List Char) × P
  /-- Closes the processes and gives the stages' statuses and stderr. -/
  finishPipeline : P → W → List Int × List (List Char) × W
  /-- The processes of a pipeline that `poll_active_run` drives itself; no result when
      one of them cannot be set up. -/
  startStreaming : List PipelineStage → List Bool → ShellState → W → Option P × W
  /-- Whether the wall-clock deadline of a streamed pipeline has passed, and its
      processes stopped for that reason. -/
  deadlinePassed : P → W → Bool
  applyDeadline : P → P
  /-- The stderr of the stages since the last call. -/
  drainStageStderr : P → List Bool → List (List Char) × P

namespace Runtime

variable {W P : Type}

/-! ## 2. Options and flags -/

def setStatus (s : Runtime W) (code : Int) : Runtime W :=
  { s with state := { s.state with lastStatus := code } }

def setLastArgument (s : Runtime W) (arg : String) : Runtime W :=
  { s with state := { s.state with lastArgument := arg } }

def requestExit (s : Runtime W) (code : Option Int) : Runtime W :=
  { s with exec := { s.exec with exitRequested := code } }

def record (s : Runtime W) (e : Event) : Runtime W :=
  { s with trace := { s.trace with
      log := e :: s.trace.log
      declared := e.declares ++ s.trace.declared } }

/-- `should_stop_execution`. -/
def shouldStopExecution (s : Runtime W) : Bool :=
  decide (0 < s.exec.breakDepth) || s.exec.loopContinue || s.exec.returnRequested.isSome ||
    s.exec.exitRequested.isSome || s.exec.resourceExhausted

/-- `check_resource_limits`. -/
def checkResourceLimits (s : Runtime W) : Bool × Runtime W :=
  if s.exec.resourceExhausted then (true, s)
  else
    let r := s.vm.beginStep
    if r.1 then (false, { s with vm := r.2 })
    else (true, { s with
      vm := r.2
      exec := { s.exec with
        resourceExhausted := true
        stopReason := r.2.budget.stopReason } })

/-- `mark_stop_reason`. -/
def markStopReason (s : Runtime W) (reason : StopReason) : Runtime W :=
  { s with exec := { s.exec with resourceExhausted := true, stopReason := some reason } }

/-- `mark_recursion_exhaustion`. -/
def markRecursionExhaustion (s : Runtime W) (reason : ExhaustionReason) : Runtime W :=
  { s with
    exec := { s.exec with stopReason := some (.exhausted reason) }
    state := { s.state with lastStatus := 128 } }

/-- `sync_pipe_budget`. -/
def syncPipeBudget (s : Runtime W) (used : Nat) : Runtime W :=
  if s.exec.resourceExhausted then s
  else
    let r := s.vm.budget.setPipeBytes used s.vm.limits.pipeByteLimit
    let s := { s with vm := { s.vm with budget := r.2 } }
    match r.1 with
    | none => s
    | some reason => s.markStopReason (.exhausted reason)

/-! ## 3. Output -/

/-- The innermost capture of the stream takes the data. -/
def capture (stdout : Bool) (data : List Char) : List OutputCapture → Option (List OutputCapture)
  | [] => none
  | c :: cs =>
    if stdout ∧ c.captureStdout then some ({ c with stdout := c.stdout ++ data } :: cs)
    else if ¬ stdout ∧ c.captureStderr then some ({ c with stderr := c.stderr ++ data } :: cs)
    else (capture stdout data cs).map (c :: ·)

/-- `route_output`; the result tells whether the data reached a visible stream. -/
def routeOutput (h : Host W P) (s : Runtime W) (stdout : Bool) (data : List Char) :
    Bool × Runtime W :=
  match h.redirect s.world stdout data with
  | (none, w) => (false, { s with world := w })
  | (some stream, w) =>
    let s := { s with world := w }
    match capture stream data s.exec.outputCaptures with
    | some cs => (false, { s with exec := { s.exec with outputCaptures := cs } })
    | none =>
      (true, { s with vm :=
        if stream then { s.vm with stdout := s.vm.stdout ++ data }
        else { s.vm with stderr := s.vm.stderr ++ data } })

/-- `WorkerRuntime::account_output`. -/
def accountOutput (s : Runtime W) (bytes : Nat) : Runtime W :=
  let s := { s with vm := s.vm.trackOutput bytes }
  if !s.exec.resourceExhausted && s.vm.outputLimitHit then
    { s with exec := { s.exec with resourceExhausted := true } }
  else s

/-- `RuntimeOutputRouter::account_output`, the one builtins and utilities write
    through: it clears the recorded reason, and the budget does not learn of the
    bytes. -/
def accountRouted (s : Runtime W) (bytes : Nat) : Runtime W :=
  let used := s.vm.outputBytes + bytes
  let s := { s with
    vm := { s.vm with outputBytes := used }
    exec := { s.exec with stopReason := none } }
  let limit := s.vm.limits.outputByteLimit
  if !s.exec.resourceExhausted && decide (0 < limit ∧ limit < used) then
    { s with exec := { s.exec with
      resourceExhausted := true
      stopReason := some (.exhausted ⟨.visibleOutputBytes, used, limit⟩) } }
  else s

/-- `write_stdout` and `write_stderr` of the runtime. -/
def write (h : Host W P) (s : Runtime W) (stdout : Bool) (data : List Char) : Runtime W :=
  let r := s.routeOutput h stdout data
  if r.1 then r.2.accountOutput data.length else r.2

def writeStderr (h : Host W P) (s : Runtime W) (msg : String) : Runtime W :=
  s.write h false msg.toList

/-- `write_stdout` and `write_stderr` of `RuntimeOutputRouter`. -/
def writeRouted (h : Host W P) (s : Runtime W) (stdout : Bool) (data : List Char) : Runtime W :=
  let r := s.routeOutput h stdout data
  if r.1 then r.2.accountRouted data.length else r.2

/-- What the trace keeps of a sequence of writes: those that a subshell does not undo,
    and an error that no check follows. -/
def noteWrites (s : Runtime W) (ops : List StateOp) : Runtime W :=
  { s with trace := { s.trace with
      leaks := s.state.leaking ops ++ s.trace.leaks
      raised := s.trace.raised + (!s.trace.checking && s.state.raises ops).toNat } }

/-- The effect of a call: the state's writes, then the streams'.  Builtins and
    utilities write through the router (`routed`), the runtime's own commands and
    external results do not. -/
def applyEffect (h : Host W P) (s : Runtime W) (routed : Bool) (e : Effect W) :
    Run W (Runtime W) :=
  match s.state.applyAll e.ops with
  | none => .error s
  | some st =>
    let s := { (s.noteWrites e.ops) with state := st, world := e.world }
    let s := e.writes.foldl
      (fun s w => if routed then s.writeRouted h w.1 w.2 else s.write h w.1 w.2) s
    .ok (match e.exit with
      | some code => s.requestExit (some code)
      | none => s)

/-- Writes of the expansion code. -/
def applyOps (s : Runtime W) (ops : List StateOp) : Run W (Runtime W) :=
  match s.state.applyAll ops with
  | none => .error s
  | some st => .ok { (s.noteWrites ops) with state := st }

theorem applyOps_nil (s : Runtime W) : s.applyOps [] = .ok s := by
  simp [applyOps, noteWrites, ShellState.leaking, ShellState.raises, ShellState.applyAll]

theorem applyOps_ok {s t : Runtime W} {ops : List StateOp} (hok : s.applyOps ops = .ok t) :
    s.state.applyAll ops = some t.state ∧ t.world = s.world ∧ (ops = [] → t = s) := by
  unfold applyOps at hok
  cases happ : s.state.applyAll ops with
  | none =>
    rw [happ] at hok
    cases hok
  | some st =>
    rw [happ] at hok
    cases hok
    refine ⟨rfl, rfl, ?_⟩
    rintro rfl
    cases happ
    simp [noteWrites, ShellState.leaking, ShellState.raises, ShellState.applyAll]

/-- `set_var`. -/
def setVar (s : Runtime W) (name value : String) : Run W (Runtime W) :=
  s.applyOps [.setVar name value]

/-- `set_pipestatus`. -/
def setPipestatus (s : Runtime W) (statuses : List Int) : Runtime W :=
  let state := statuses.zipIdx.foldl
    (fun st e => st.setArrayElement "PIPESTATUS" (toString e.2) (toString e.1))
    (s.state.initIndexedArray "PIPESTATUS")
  { s with state := state }

/-! ## 4. Scopes of the interpreter -/

/-- `push_output_capture`. -/
def pushCapture (s : Runtime W) (stdout stderr : Bool) : Runtime W :=
  { s with exec := { s.exec with
      outputCaptures := ⟨stdout, stderr, [], []⟩ :: s.exec.outputCaptures } }

/-- `pop_output_capture`. -/
def popCapture (s : Runtime W) : OutputCapture × Runtime W :=
  match s.exec.outputCaptures with
  | [] => (⟨false, false, [], []⟩, s)
  | c :: cs => (c, { s with exec := { s.exec with outputCaptures := cs } })

/-- The first half of `with_nested_shell_scope`. -/
def enterNested (s : Runtime W) : Runtime W :=
  { s with exec := { s.exec with nestedShellDepth := s.exec.nestedShellDepth + 1 } }

def leaveNested (s : Runtime W) : Runtime W :=
  { s with exec := { s.exec with nestedShellDepth := s.exec.nestedShellDepth - 1 } }

/-- A trap handler runs with traps off. -/
def enterTrap (s : Runtime W) : Runtime W :=
  { s with exec := { s.exec with trapDepth := s.exec.trapDepth + 1 } }

def leaveTrap (s : Runtime W) : Runtime W :=
  { s with exec := { s.exec with trapDepth := s.exec.trapDepth - 1 } }

/-- `errexit_suppressed = true` around a condition. -/
def enterCondition (s : Runtime W) : Runtime W :=
  { s with exec := { s.exec with errexitSuppressed := true } }

/-- The flag as it was before the condition. -/
def leaveCondition (saved s : Runtime W) : Runtime W :=
  { s with exec := { s.exec with errexitSuppressed := saved.exec.errexitSuppressed } }

/-! ## 5. Pending errors of an expansion -/

/-- A pending error variable of the state: its text, and the state without it. -/
def takeError (s : Runtime W) (var : String) : Option String × Runtime W :=
  let taken := s.state.takePending var
  (taken.1, { s with state := taken.2 })

section

variable (report : Runtime W → String → Runtime W)

/-- A pending nounset error is reported and asks the shell to exit. -/
def nounsetError (s : Runtime W) : Bool × Runtime W :=
  match s.takeError "_NOUNSET_ERROR" with
  | (none, s) => (false, s)
  | (some name, s) =>
    (true, ((report s ("wasmsh: " ++ name ++ ": unbound variable\n")).setStatus 1).requestExit
      (some 1))

/-- A pending arithmetic error is reported. -/
def arithError (s : Runtime W) : Bool × Runtime W :=
  match s.takeError "_ARITH_ERROR" with
  | (none, s) => (false, s)
  | (some msg, s) => (true, (report s ("wasmsh: " ++ msg ++ "\n")).setStatus 1)

/-- A pending shell error is reported; a leading character of code 1 marks a fatal one. -/
def expansionError (s : Runtime W) : Bool × Runtime W :=
  match s.takeError "_SHELL_ERROR" with
  | (none, s) => (false, s)
  | (some msg, s) =>
    match msg.toList with
    | '\x01' :: rest =>
      (true, ((report s ("wasmsh: " ++ String.ofList rest ++ "\n")).setStatus 1).requestExit
        (some 1))
    | _ => (true, (report s ("wasmsh: " ++ msg ++ "\n")).setStatus 1)

/-- The three checks that follow an expansion. -/
def pendingErrors (s : Runtime W) : Bool × Runtime W :=
  match s.nounsetError report with
  | (true, s) => (true, s)
  | (false, s) =>
    match s.arithError report with
    | (true, s) => (true, s)
    | (false, s) => s.expansionError report

end

/-- An expansion begins that a check of the pending errors follows; the source does
    nothing here. -/
def enterChecked (s : Runtime W) : Runtime W :=
  { s with trace := { s.trace with checking := true } }

/-- The check has been made; an error may still be pending. -/
def leaveChecked (saved s : Runtime W) : Runtime W :=
  { s with trace := { s.trace with
      checking := saved.trace.checking
      raised := s.trace.raised +
        (!saved.trace.checking && saved.state.quiet && !s.state.quiet).toNat } }

/-- `check_nounset_error`, `check_arith_error` and `check_expansion_error`. -/
def checkErrors (h : Host W P) (s : Runtime W) : Bool × Runtime W :=
  s.pendingErrors (writeStderr h)

/-- `write_visible_stderr` of the VM executor. -/
def writeVisibleStderr (h : Host W P) (s : Runtime W) (msg : String) : Runtime W :=
  s.writeRouted h false msg.toList

/-- `consume_nounset_error`, `consume_arith_error` and `consume_expansion_error`. -/
def consumeErrors (h : Host W P) (s : Runtime W) : Bool × Runtime W :=
  s.pendingErrors (writeVisibleStderr h)

/-! ## 6. errexit and traps -/

/-- `should_errexit`. -/
def shouldErrexit (s : Runtime W) (l : AndOr) : Bool :=
  !s.exec.errexitSuppressed && l.rest.isEmpty && !l.first.negated && s.state.flag "SHOPT_e" &&
    decide (s.state.lastStatus ≠ 0) && s.exec.exitRequested.isNone

/-- `should_run_err_trap`. -/
def shouldRunErrTrap (s : Runtime W) (l : AndOr) : Bool :=
  !s.exec.errexitSuppressed && (s.exec.nestedShellDepth == 0 || s.state.flag "SHOPT_E") &&
    l.rest.isEmpty && !l.first.negated && decide (s.state.lastStatus ≠ 0) &&
    s.exec.exitRequested.isNone && s.exec.trapDepth == 0

/-- The guard of `run_debug_trap_if_needed` and `run_return_trap_if_needed`. -/
def trapsQuiet (s : Runtime W) : Bool :=
  decide (0 < s.exec.trapDepth) || s.exec.resourceExhausted ||
    (decide (0 < s.exec.nestedShellDepth) && !s.state.flag "SHOPT_T")

/-- `trap_handler`. -/
def trapHandler (s : Runtime W) (handlerVar ignoreVar : String) : Option String :=
  if 0 < s.exec.trapDepth ∨ s.state.flag ignoreVar then none
  else (s.state.getEnvVar handlerVar).filter (· ≠ "")

end Runtime

end Wasmsh

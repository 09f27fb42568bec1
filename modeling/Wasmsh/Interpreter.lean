import Wasmsh.Compound

/-!
# Pipelines, lists and the whole interpreter

From a pipeline's stages up to `execute_body` and `execute_input_inner`, and the knot:
`interp n` is the interpreter with calls `n` deep.  With a bound of `0` every entry
stops at the state it was called in, so a run that is cut short still has the trace of
what it did.
-/

namespace Wasmsh

open Hir IndexMap

namespace Interp

variable {W P : Type} (h : Host W P) (r : Recs W P)

/-! ## 1. Pipelines -/

/-- `word_parts_require_runtime_expansion`. -/
def requireRuntimeExpansion : List WordPart → Bool
  | [] => false
  | .literal _ :: ps => requireRuntimeExpansion ps
  | .singleQuoted _ :: ps => requireRuntimeExpansion ps
  | .doubleQuoted qs :: ps => requireRuntimeExpansion qs || requireRuntimeExpansion ps
  | _ :: _ => true

mutual

/-- `word_part_has_brace_or_glob_literal`. -/
def wordPartHasBraceOrGlob : WordPart → Bool
  | .literal t => textHasBraceOrGlobLiteral t
  | .singleQuoted t => textHasBraceOrGlobLiteral t
  | .parameter t => textHasBraceOrGlobLiteral t
  | .doubleQuoted ps => wordPartsHaveBraceOrGlob ps
  | .arithmetic _ => false
  | _ => true

def wordPartsHaveBraceOrGlob : List WordPart → Bool
  | [] => false
  | p :: ps => wordPartHasBraceOrGlob p || wordPartsHaveBraceOrGlob ps

end

/-- `command_needs_full_single_stage_execution`. -/
def needsFullSingleStageExecution (s : Runtime W) (cmd : Command) : Bool :=
  s.state.flag "SHOPT_x" ||
    match cmd with
    | .exec e => e.argv.any (fun w => wordPartsHaveBraceOrGlob w.parts)
    | _ => false

/-- `resolve_streaming_pipeline_argv`. -/
def resolveStreamingPipelineArgv (cmd : Command) (s : Runtime W) :
    Run W (Option (List String) × Runtime W) :=
  match cmd with
  | .exec e =>
    if !e.env.isEmpty || !e.redirections.isEmpty ||
        e.argv.any (fun w => requireRuntimeExpansion w.parts) then .ok (none, s)
    else expandChecked h e.argv s
  | _ => .ok (none, s)

/-- `compile_pipeline_stage_from_argv` with `parse_streaming_stage`. -/
def compileStage (s : Runtime W) (cmd : Command) (first : Bool) :
    Option (List String) → PipelineStage
  | none => .bufferedHir cmd
  | some [] => .bufferedHir cmd
  | some (name :: args) =>
    if s.state.flag "SHOPT_expand_aliases" && contains s.aliases name then .bufferedHir cmd
    else if contains s.functions name then .bufferedArgv (name :: args)
    else if h.isNativeStage (name :: args) first then .native (name :: args)
    else if s.allowExternalStreaming && h.hasStreamHandler && h.hasExternalSpec name then
      .external (name :: args)
    else if h.isBufferedStageCandidate name then .bufferedArgv (name :: args)
    else .bufferedHir cmd

/-- `compile_pipeline_stages`: the stages and the last argument of each. -/
def compileStages : List Command → Bool → Runtime W →
    Run W (List (PipelineStage × Option String) × Runtime W)
  | [], _, s => .ok ([], s)
  | cmd :: cmds, first, s => do
    let (argv, s) ← resolveStreamingPipelineArgv h cmd s
    let stage := compileStage h s cmd first argv
    let (stages, s) ← compileStages cmds false s
    return ((stage, argv.bind List.getLast?) :: stages, s)

/-- `execute_scheduled_single_stage`. -/
def executeScheduledSingleStage (stage : PipelineStage) (s : Runtime W) : Run W (Runtime W) :=
  match stage with
  | .bufferedArgv argv => r.executeArgvCommand argv (traceCommand h argv s)
  | .bufferedHir cmd => r.executeCommand cmd s
  | .native argv =>
    match h.runNativeStage argv s.state s.world with
    | some (effect, status) => do
      let s ← (s.record (.dispatch argv)).applyEffect h false effect
      return s.setStatus status
    | none => unsupported s
  | .external _ => unsupported s
where
  unsupported (s : Runtime W) : Run W (Runtime W) :=
    .ok ((s.setStatus 1).writeStderr h "wasmsh: unsupported single-stage scheduler node\n")

/-- `$_` after a pipeline, when one of its commands has words of its own. -/
def noteLastArgument (arg : Option String) (s : Runtime W) : Runtime W :=
  match arg with
  | some arg => s.setLastArgument arg
  | none => s

/-- `run_single_pipeline_stage`. -/
def runSinglePipelineStage (cmd : Command) (stage : PipelineStage) (lastArg : Option String)
    (s : Runtime W) : Run W (Runtime W) :=
  if needsFullSingleStageExecution s cmd then do
    let s ← r.executeCommand cmd s
    return s.setPipestatus [s.state.lastStatus]
  else do
    let s ← executeScheduledSingleStage h r stage s
    return (noteLastArgument lastArg s).setPipestatus [s.state.lastStatus]

/-- `resolve_pipeline_exit_status`. -/
def resolvePipelineExitStatus (statuses : List Int) (pipefail : Bool) : Int :=
  if pipefail then (statuses.reverse.find? (· ≠ 0)).getD 0 else statuses.getLastD 0

/-- The command of a buffered stage; the other stages have none. -/
def executeBufferedStage (stage : PipelineStage) (s : Runtime W) : Run W (Runtime W) :=
  match stage with
  | .bufferedArgv argv => r.executeArgvCommand argv s
  | .bufferedHir cmd => r.executeCommand cmd s
  | _ => .ok s

/-- The same with its output captured. -/
def runBufferedStage (stage : PipelineStage) (pipeStderr : Bool) (s : Runtime W) :
    Run W (OutputCapture × Runtime W) := do
  let saved := s
  let s := s.pushCapture true pipeStderr
  let s ← executeBufferedStage r stage s
  let (captured, s) := s.popCapture
  return (captured, { s with world := h.leaveExecIo saved.world s.world })

/-- One entry of `poll_streaming_processes`: process `idx`, unless it has finished. -/
def pollProcess (stages : List PipelineStage) (pipeStderr : List Bool) (idx : Nat)
    (finished : Bool) (p : P) (s : Runtime W) : Run W (PipeProcessPoll × P × Runtime W) :=
  if finished then .ok (.pending, p, s)
  else
    let polled := h.pollProcess p idx s.state s.world
    let s := { s with world := polled.2.2 }
    match polled.1, stages[idx]? with
    | .runCommand, some stage => do
      let (captured, s) ← runBufferedStage h r stage (pipeStderr.getD idx false) s
      let done := h.commandDone polled.2.1 idx captured s.state.lastStatus
      return (done.1, done.2, s)
    | answer, _ => .ok (answer, polled.2.1, s)

/-- `poll_streaming_processes` over the processes below `n`, the last one first: the
    finished ones and whether anything moved. -/
def pollProcesses (stages : List PipelineStage) (pipeStderr : List Bool) :
    Nat → List Bool → P → Runtime W → Run W (Bool × List Bool × P × Runtime W)
  | 0, finished, p, s => .ok (false, finished, p, s)
  | n + 1, finished, p, s => do
    let (answer, p, s) ← pollProcess h r stages pipeStderr n (finished.getD n false) p s
    let finished := if answer = .exited then finished.set n true else finished
    let (moved, finished, p, s) ← pollProcesses stages pipeStderr n finished p s
    return (moved || answer = .exited || answer = .ready, finished, p, s)

/-- `drain_final_pipe_to_stdout`: chunks are written until the output limit is hit. -/
def drainFinalPipe : List (List Char) → Runtime W → Bool × Runtime W
  | [], s => (false, s)
  | chunk :: chunks, s =>
    let s := s.write h true chunk
    if s.exec.resourceExhausted then (true, s) else (true, (drainFinalPipe chunks s).2)

/-- One turn of `drive_streaming_pipeline`. -/
def drive (stages : List PipelineStage) (pipeStderr : List Bool) (p : P) (finished : List Bool)
    (s : Runtime W) : Run W (P × Runtime W) := do
  let checked := s.checkResourceLimits
  let s := checked.2
  if checked.1 then return (p, s)
  else
    let (moved, finished, p, s) ←
      pollProcesses h r stages pipeStderr stages.length finished p (s.record .iteration)
    let s := s.syncPipeBudget (h.bufferedPipeBytes p)
    if s.exec.resourceExhausted then return (p, s)
    else
      let drained := h.drainFinalPipe p
      let written := drainFinalPipe h drained.1 s
      let s := written.2
      if s.exec.resourceExhausted || finished.all id || !(moved || written.1) then
        return (drained.2, s)
      else r.drive stages pipeStderr drained.2 finished s

/-- The several stages of a pipeline from their start to their statuses. -/
def executeStages (stages : List (PipelineStage × Option String)) (pipeStderr : List Bool)
    (pipefail : Bool) (s : Runtime W) : Run W (Runtime W) := do
  let started := h.startPipeline (stages.map (·.1)) pipeStderr s.state s.world
  let (p, s) ← drive h r (stages.map (·.1)) pipeStderr started.1
    (List.replicate stages.length false) { s with world := started.2 }
  let done := h.finishPipeline p s.world
  let s := (done.2.1.zipIdx.filter (fun e => !(pipeStderr.getD e.2 false) && !e.1.isEmpty)).foldl
    (fun s e => s.write h false e.1) { s with world := done.2.2 }
  let s := (noteLastArgument (stages.filterMap (·.2)).getLast? s).setPipestatus done.1
  if s.exec.resourceExhausted then return s
  else return s.setStatus (resolvePipelineExitStatus done.1 pipefail)

/-- `execute_scheduled_pipeline`. -/
def executeScheduledPipeline (pl : Pipeline) (s : Runtime W) : Run W (Runtime W) := do
  let pipefail := s.state.flag "SHOPT_o_pipefail"
  let (stages, s) ← compileStages h pl.commands true s
  match pl.commands, stages with
  | [cmd], [stage] => runSinglePipelineStage h r cmd stage.1 stage.2 s
  | _, stages => executeStages h r stages pl.pipeStderr pipefail s

/-- `!`. -/
def negateStatus (negated : Bool) (s : Runtime W) : Runtime W :=
  if negated then s.setStatus (if s.state.lastStatus = 0 then 1 else 0) else s

/-- `emit_pipeline_timing`. -/
def emitPipelineTiming (timed posix : Bool) (s : Runtime W) : Runtime W :=
  if timed then s.write h false (h.pipelineTiming s.world posix) else s

/-- `execute_pipeline`. -/
def executePipeline (pl : Pipeline) (s : Runtime W) : Run W (Runtime W) := do
  let s ← executeScheduledPipeline h r pl s
  return emitPipelineTiming h pl.timed pl.timePosix (negateStatus pl.negated s)

/-! ## 2. Lists and bodies -/

/-- Whether the next member of a list runs after a status. -/
def memberRuns (op : AndOrOp) (status : Int) : Bool :=
  match op with
  | .and => status == 0
  | .or => status != 0

/-- The loop of `execute_pipeline_chain`. -/
def chainRest : List (AndOrOp × Pipeline) → Runtime W → Run W (Runtime W)
  | [], s => .ok s
  | (op, pl) :: rest, s =>
    if memberRuns op s.state.lastStatus then do
      let s ← executePipeline h r pl s
      chainRest rest s
    else chainRest rest s

/-- `execute_pipeline_chain`. -/
def executePipelineChain (l : AndOr) (s : Runtime W) : Run W (Runtime W) := do
  let s ← executePipeline h r l.first s
  chainRest h r l.rest s

/-- `execute_and_or`. -/
def executeAndOr (l : AndOr) (s : Runtime W) : Run W (Runtime W) :=
  match lowerVmSubsetAndOr h s l with
  | some code => do
    let s ← runDebugTrapIfNeeded h r s
    executeIrProgram h code s
  | none => executePipelineChain h r l s

/-- The loop of `execute_complete_command`. -/
def executeLists : List AndOr → Runtime W → Run W (Runtime W)
  | [], s => .ok s
  | l :: ls, s =>
    if s.shouldStopExecution || s.state.flag "SHOPT_n" then .ok s
    else do
      let s ← executeAndOr h r l s
      if s.exec.exitRequested.isSome then return s
      else
        let s ← handlePostAndOr h r l s
        executeLists ls s

/-- `execute_complete_command`. -/
def executeCompleteCommand (cc : CompleteCommand) (s : Runtime W) : Run W (Runtime W) :=
  executeLists h r cc.list s

/-- `execute_body`. -/
def executeBody : List CompleteCommand → Runtime W → Run W (Runtime W)
  | [], s => .ok s
  | cc :: body, s =>
    if s.shouldStopExecution then .ok s
    else
      let checked := s.checkResourceLimits
      if checked.1 then .ok checked.2
      else if checked.2.state.flag "SHOPT_n" then executeBody body checked.2
      else do
        let s ← executeCompleteCommand h r cc checked.2
        executeBody body s

/-- `maybe_write_verbose_input`. -/
def maybeWriteVerboseInput (input : String) (cc : CompleteCommand) (s : Runtime W) : Runtime W :=
  let text := (input.toList.drop cc.span.start).take (cc.span.stop - cc.span.start)
  if s.state.flag "SHOPT_v" && !text.isEmpty then
    let s := s.write h false text
    if text.getLast? = some '\n' then s else s.writeStderr h "\n"
  else s

/-- `line_number_for_offset`. -/
def lineNumberForOffset (input : String) (offset : Nat) : Nat :=
  (input.toList.take offset).count '\n' + 1

/-- The loop of `execute_input_inner_impl`. -/
def executeItems (input : String) : List CompleteCommand → Runtime W → Run W (Runtime W)
  | [], s => .ok s
  | cc :: items, s =>
    if s.exec.exitRequested.isSome then .ok s
    else
      let s := { s with state :=
        { s.state with lineno := lineNumberForOffset input cc.span.start } }
      let s := maybeWriteVerboseInput h input cc s
      if s.state.flag "SHOPT_n" then executeItems input items s
      else do
        let s ← executeCompleteCommand h r cc s
        executeItems input items s

/-- The visible buffers as events, and the state without them. -/
def drainBuffers (s : Runtime W) : Drained × Runtime W :=
  ((if s.vm.stdout.isEmpty then [] else [(true, s.vm.stdout)]) ++
    (if s.vm.stderr.isEmpty then [] else [(false, s.vm.stderr)]),
    { s with vm := { s.vm with stdout := [], stderr := [] } })

/-- `execute_input_inner`. -/
def executeInputInner (input : String) (s : Runtime W) : Run W (Drained × Runtime W) :=
  let entered := s.vm.budget.enterRecursion s.vm.limits.recursionLimit
  let s := { s with vm := { s.vm with budget := entered.2 } }
  match entered.1 with
  | some reason =>
    .ok ([(false, "wasmsh: maximum recursion depth exceeded\n".toList)],
      s.markRecursionExhaustion reason)
  | none =>
    match h.parse input with
    | .error msg =>
      let s := { s.setStatus 2 with vm := { s.vm with budget := s.vm.budget.exitRecursion } }
      .ok ([(false, ("wasmsh: parse error: " ++ msg ++ "\n").toList)], s)
    | .ok program => do
      let s ← executeItems h r input program.items s
      let drained := drainBuffers s
      return (drained.1, { drained.2 with vm :=
        { drained.2.vm with budget := drained.2.vm.budget.exitRecursion } })

/-! ## 3. The knot -/

/-- Every entry stops where it is called. -/
def outOfFuel : Recs W P where
  executeBody := fun _ s => .error s
  executeCommand := fun _ s => .error s
  executeArgvCommand := fun _ s => .error s
  executeWithoutFunctions := fun _ s => .error s
  executeInputInner := fun _ s => .error s
  whileTurn := fun _ _ _ _ s => .error s
  arithForTurn := fun _ _ _ s => .error s
  drive := fun _ _ _ _ s => .error s

/-- The functions above over entries `r`. -/
def next : Recs W P where
  executeBody := executeBody h r
  executeCommand := executeCommand h r
  executeArgvCommand := executeArgvCommand h r
  executeWithoutFunctions := executeWithoutFunctions h r
  executeInputInner := executeInputInner h r
  whileTurn := whileTurn r
  arithForTurn := arithForTurn h r
  drive := drive h r

/-- The interpreter, `n` calls deep. -/
def interp : Nat → Recs W P
  | 0 => outOfFuel
  | n + 1 => next h (interp n)

end Interp

end Wasmsh

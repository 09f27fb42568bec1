import Wasmsh.Interpreter

/-!
# A host without files

The smallest host on which scripts run: words are taken literally, a script text is
looked up in a table of parsed programs, builtins write the shell state and nothing
else, and there are neither utilities, nor external commands, nor files.
-/

namespace Wasmsh

open Hir

/-- The text of a word without expansions. -/
def Word.text (w : Word) : String := (Ir.literalWordText w).getD ""

/-- An effect on the shell state only. -/
def Effect.ofOps (ops : List StateOp) : Effect Unit := ⟨ops, (), [], none⟩

/-- Arithmetic on integer literals; a division by the literal `0` reports its error. -/
def bareArithmetic (e : String) : List StateOp × Int :=
  if ['/', '0'].isSuffixOf e.toList then
    ([.setEntry "_ARITH_ERROR" (.ofScalar "division by 0")], 0)
  else ([], (parseI32 e).getD 0)

/-- A host whose builtins are those that `builtin` knows, over the programs that `parse`
    gives. -/
def Host.bare (parse : String → Except String Program)
    (builtin : List String → ShellState → Option (List StateOp)) : Host Unit Unit where
  parse := parse
  expandArgv ws _ _ := ([], some (ws.map Word.text))
  splitForPart _ _ p _ f _ := ([], { f with current := f.current ++ (Word.mk [p]).text.toList })
  expandGlobs fields _ _ := fields
  expandWord w _ := ([], w.text)
  evalArithmetic e _ := bareArithmetic e
  arithSubsts _ := []
  resolveArith e _ := e
  globMatch _ pattern value := pattern == value
  evalDoubleBracket ws _ _ := (.ofOps [], ws.any (·.text ≠ ""))
  applyRedirections _ _ _ := .ofOps []
  prepareExecIo _ _ _ := (.ofOps [], true)
  leaveExecIo w _ := w
  redirect _ stdout _ := (some stdout, ())
  isBuiltin name := (builtin [name] .new).isSome
  isUtility _ := false
  callBuiltin argv st _ := .ofOps ((builtin argv st).getD [.setStatus 127])
  callUtility _ _ _ := (.ofOps [.setStatus 127], [])
  callExternal _ _ _ := .ofOps [.setStatus 127]
  runtimeCommand _ _ _ _ := .ofOps [.setStatus 0]
  vmExecuteBuiltin _ argv _ st _ := .ofOps ((builtin argv st).getD [.setStatus 127])
  readScript name _ _ := ((parse name).toOption.map fun _ => (name, name), ())
  detectShellShebang _ _ _ := (none, ())
  enterSubst w := w
  enterChild w := w
  enterInput _ w := w
  commandLines _ := none
  selectInput _ := ([], ())
  isNativeStage _ _ := false
  hasExternalSpec _ := false
  hasStreamHandler := false
  isBufferedStageCandidate _ := false
  runNativeStage _ _ _ := none
  pipelineTiming _ _ := []
  startPipeline _ _ _ _ := ((), ())
  pollProcess _ _ _ _ := (.exited, (), ())
  commandDone _ _ _ _ := (.exited, ())
  bufferedPipeBytes _ := 0
  drainFinalPipe _ := ([], ())
  finishPipeline _ _ := ([], [], ())
  startStreaming _ _ _ _ := (none, ())
  deadlinePassed _ _ := false
  applyDeadline p := p
  drainStageStderr p _ := ([], p)

/-- A few builtins: `true`, `false`, `:`, the letters of `set`, and `cd`. -/
def basicBuiltins : List String → ShellState → Option (List StateOp)
  | "true" :: _, _ => some [.setStatus 0]
  | ":" :: _, _ => some [.setStatus 0]
  | "false" :: _, _ => some [.setStatus 1]
  | "set" :: args, _ =>
    some (args.map (fun a => .setVar ("SHOPT_" ++ String.ofList (a.toList.drop 1)) "1") ++
      [.setStatus 0])
  | "cd" :: args, st =>
    let dir := args.headD "/home/user"
    some [.setVar "OLDPWD" st.cwd, .setCwd dir, .setVar "PWD" dir, .setStatus 0]
  | _, _ => none

/-- The pipeline of one command. -/
def Hir.Pipeline.single (c : Command) : Pipeline := ⟨false, false, false, [c], [false]⟩

/-- The pipeline of one simple command of literal words. -/
def Hir.Pipeline.ofWords (ws : List String) : Pipeline := .single (.ofWords ws)

/-- A complete command of the lists given. -/
def Hir.CompleteCommand.ofLists (ls : List AndOr) : CompleteCommand := ⟨ls, ⟨0, 0⟩⟩

/-- A host with the basic builtins on which the one text `text` is `program`. -/
def Host.ofScript (text : String) (program : List CompleteCommand) : Host Unit Unit :=
  .bare (fun t => if t = text then .ok ⟨program⟩ else .error "no such text") basicBuiltins

/-- The runtime after `Init`, with the limits given. -/
def Runtime.initial {W : Type} (w : W) (limits : ExecutionLimits) (vmSubset : Bool) : Runtime W where
  state := .new
  world := w
  vm := ⟨limits, .new, 0, false, [], []⟩
  exec := .new
  functions := []
  aliases := []
  lastSubstStatus := none
  vmSubsetEnabled := vmSubset
  allowExternalStreaming := false
  trace := .new

/-- A new shell on a host without files, with no limits. -/
def Runtime.bare : Runtime Unit := .initial () ⟨0, 0, 0, 0⟩ true

/-- The same with one variable. -/
def Runtime.bareWith (name : String) (v : ShellVar) : Runtime Unit :=
  { Runtime.bare with state := Runtime.bare.state.setEntry name v }

end Wasmsh

import Wasmsh.Substitution

/-!
# Dispatch of a command line

`execute_argv_command` and below: from the words of a simple command to the runtime
command, function, script, builtin, utility or external command they name.
-/

namespace Wasmsh

open Hir IndexMap

namespace Interp

variable {W P : Type} (h : Host W P) (r : Recs W P)

/-! ## 1. Runtime commands -/

/-- `trace_command`. -/
def traceCommand (argv : List String) (s : Runtime W) : Runtime W :=
  if s.state.flag "SHOPT_x" then
    s.writeStderr h ((s.state.getEnvVar "PS4").getD "+ " ++ " ".intercalate argv ++ "\n")
  else s

/-- `execute_local`. -/
def executeLocal : List String → Runtime W → Run W (Runtime W)
  | [], s => .ok (s.setStatus 0)
  | arg :: args, s => do
    let name := String.ofList (arg.toList.takeWhile (· != '='))
    let value := String.ofList ((arg.toList.dropWhile (· != '=')).drop 1)
    let s := { s with exec := { s.exec with
      localSaveStack := s.exec.localSaveStack ++ [(name, s.state.getVar name)] } }
    let s ← s.setVar name value
    executeLocal args s

/-- The trace learns of a `local` run through `builtin`, which saves nothing. -/
def noteBuiltinLocal (name : String) (args : List String) (s : Runtime W) : Runtime W :=
  if name = "local" then
    s.record (.builtinLocal (args.map fun arg => String.ofList (arg.toList.takeWhile (· != '='))))
  else s

def pushSource (path : String) (s : Runtime W) : Runtime W :=
  { s with state := { s.state with sourceStack := path :: s.state.sourceStack } }

def popSource (s : Runtime W) : Runtime W :=
  { s with state := { s.state with sourceStack := s.state.sourceStack.drop 1 } }

/-- `execute_source`, after the file was found. -/
def executeSource (argv : List String) (s : Runtime W) : Run W (Runtime W) :=
  match argv[1]? with
  | none => .ok s
  | some path =>
    match h.readScript path s.state s.world with
    | (none, w) =>
      .ok (({ s with world := w }.writeStderr h ("source: " ++ path ++ ": not found\n")).setStatus 1)
    | (some (full, code), w) => do
      let s := pushSource full { s with world := w }
      let (events, s) ← r.executeInputInner code s.enterNested
      let s ← runReturnTrapIfNeeded h r (mergeSubEvents h s events)
      return popSource s.leaveNested

/-- `execute_alias`. -/
def executeAlias : List String → Runtime W → Runtime W
  | [], s => s.setStatus 0
  | arg :: args, s =>
    if arg.toList.contains '=' then
      let name := String.ofList (arg.toList.takeWhile (· != '='))
      let value := String.ofList ((arg.toList.dropWhile (· != '=')).drop 1)
      executeAlias args { s with aliases := insert s.aliases name value }
    else match get s.aliases arg with
      | some value =>
        executeAlias args (s.write h true ("alias " ++ arg ++ "='" ++ value ++ "'\n").toList)
      | none => (s.writeStderr h ("alias: " ++ arg ++ ": not found\n")).setStatus 1

/-- `execute_alias` without operands. -/
def listAliases (s : Runtime W) : Runtime W :=
  (s.aliases.foldl (fun s e =>
    s.write h true ("alias " ++ e.1 ++ "='" ++ e.2 ++ "'\n").toList) s).setStatus 0

/-- `execute_unalias`. -/
def executeUnalias : List String → Runtime W → Runtime W
  | [], s => s.setStatus 0
  | arg :: args, s =>
    if arg = "-a" then executeUnalias args { s with aliases := [] }
    else if contains s.aliases arg then
      executeUnalias args { s with aliases := remove s.aliases arg }
    else (s.writeStderr h ("unalias: " ++ arg ++ ": not found\n")).setStatus 1

/-- The operands of `command` after its flags; nothing when `-v` or `-V` is among them. -/
def commandOperands : List String → Option (List String)
  | [] => some []
  | a :: as =>
    if a = "-v" ∨ a = "-V" then none
    else if a.toList.head? = some '-' ∧ 1 < a.toList.length then commandOperands as
    else some (a :: as)

/-- `execute_runtime_command`. -/
def executeRuntimeCommand (kind : RuntimeCommandKind) (argv : List String) (s : Runtime W) :
    Run W (Runtime W) :=
  match kind with
  | .local_ => executeLocal (argv.drop 1) s
  | .break_ =>
    let depth := ((argv[1]?).bind (parseUnsigned 32)).getD 1
    .ok ({ s with exec := { s.exec with breakDepth := depth } }.setStatus 0)
  | .continue_ => .ok ({ s with exec := { s.exec with loopContinue := true } }.setStatus 0)
  | .return_ =>
    if s.state.funcStack.isEmpty then
      .ok ((s.writeStderr h
        "wasmsh: return: can only `return' from a function or sourced script\n").setStatus 1)
    else
      let code := ((argv[1]?).bind parseI32).getD s.state.lastStatus
      .ok ({ s with exec := { s.exec with returnRequested := some code } }.setStatus code)
  | .exit_ =>
    let code := ((argv[1]?).bind parseI32).getD s.state.lastStatus
    .ok ({ s with exec := { s.exec with exitRequested := some code } }.setStatus code)
  | .eval => do
    let (events, s) ← r.executeInputInner (" ".intercalate (argv.drop 1)) s
    return mergeSubEvents h s events
  | .source => executeSource h r argv s
  | .alias => .ok (if argv.length ≤ 1 then listAliases h s else executeAlias h (argv.drop 1) s)
  | .unalias =>
    .ok (if argv.length ≤ 1 then
        (s.writeStderr h "unalias: usage: unalias [-a] name ...\n").setStatus 1
      else executeUnalias h (argv.drop 1) s)
  | .builtinKeyword =>
    match argv.drop 1 with
    | [] => .ok (s.setStatus 0)
    | name :: args =>
      if h.isBuiltin name then
        let s := noteBuiltinLocal name args s
        s.applyEffect h true (h.callBuiltin (name :: args) s.state s.world)
      else .ok ((s.writeStderr h ("builtin: " ++ name ++ ": not a shell builtin\n")).setStatus 1)
  | .commandKeyword =>
    match commandOperands (argv.drop 1) with
    | some [] => .ok (s.setStatus 0)
    | some args => r.executeWithoutFunctions args s
    | none => s.applyEffect h false (h.runtimeCommand .commandKeyword argv s.state s.world)
  | .execKeyword =>
    match argv.drop 1 with
    | [] => .ok (s.setStatus 0)
    | args => r.executeWithoutFunctions args s
  | kind => s.applyEffect h false (h.runtimeCommand kind argv s.state s.world)

/-! ## 2. Functions and child shells -/

/-- The restoring of locals at the end of `call_shell_function`, newest first. -/
def restoreLocals : List (String × Option String) → Runtime W → Run W (Runtime W)
  | [], s => .ok s
  | (name, some value) :: rest, s => do
    let s ← s.setVar name value
    restoreLocals rest s
  | (name, none) :: rest, s =>
    restoreLocals rest { s with state := s.state.unsetVar name }

/-- The frame of a function call. -/
def enterFunction (argv : List String) (s : Runtime W) : Runtime W :=
  { s with state := { s.state with
      positional := argv.drop 1
      funcStack := argv.headD "" :: s.state.funcStack } }.enterNested

/-- After the body: a pending `return` is done, and the locals of the call are taken
    off the stack. -/
def leaveBody (saved t : Runtime W) : Runtime W :=
  { t with exec := { t.exec with
      nestedShellDepth := t.exec.nestedShellDepth - 1
      returnRequested := none
      localSaveStack := t.exec.localSaveStack.take saved.exec.localSaveStack.length } }

/-- The end of the frame, after the locals have their old values. -/
def leaveFunction (saved t : Runtime W) : Runtime W :=
  { t with
    state := { t.state with
      funcStack := t.state.funcStack.drop 1
      positional := saved.state.positional }
    vm := { t.vm with budget := t.vm.budget.exitRecursion }
    trace := saved.trace.dropPositional t.trace }

/-- `call_shell_function`. -/
def callShellFunction (argv : List String) (body : Command) (s : Runtime W) :
    Run W (Runtime W) :=
  let entered := s.vm.budget.enterRecursion s.vm.limits.recursionLimit
  let s := { s with vm := { s.vm with budget := entered.2 } }
  match entered.1 with
  | some reason =>
    .ok ((s.markRecursionExhaustion reason).writeStderr h
      "wasmsh: maximum recursion depth exceeded\n")
  | none => do
    let t ← r.executeCommand body (enterFunction argv s)
    let t ← runReturnTrapIfNeeded h r t
    let locals := t.exec.localSaveStack.drop s.exec.localSaveStack.length
    let t ← restoreLocals locals.reverse (leaveBody s t)
    return leaveFunction s t

/-- `parse_shell_flags`: noexec, xtrace and the index of the first operand. -/
def parseShellFlags : List String → Nat → Bool → Bool → Bool × Bool × Nat
  | [], idx, n, x => (n, x, idx)
  | arg :: args, idx, n, x =>
    match arg.toList with
    | '-' :: c :: cs =>
      let upToC := (c :: cs).takeWhile (· != 'c')
      let n := n || upToC.contains 'n'
      let x := x || upToC.contains 'x'
      if (c :: cs).contains 'c' then (n, x, idx) else parseShellFlags args (idx + 1) n x
    | _ => (n, x, idx)

/-- `check_script_syntax`: the status of `sh -n`, and what it prints. -/
def checkScriptSyntax (script name : String) (s : Runtime W) : Runtime W :=
  match h.parse script with
  | .ok _ => s.setStatus 0
  | .error msg => (s.writeStderr h (name ++ ": syntax error: " ++ msg ++ "\n")).setStatus 2

/-- `$0` and the positional parameters of the parent again. -/
def restoreArguments (saved t : Runtime W) : Runtime W :=
  { t with
    state := { t.state with
      positional := saved.state.positional
      scriptName := saved.state.scriptName }
    trace := saved.trace.dropPositional t.trace }

/-- `execute_shell_child` and `apply_isolated_script_events`: a script as a child
    shell, with its `$0` and its arguments. -/
def runShellChild (script : String) (name : Option String) (args : List String) (xtrace : Bool)
    (s : Runtime W) : Run W (Runtime W) := do
  let child := { s with state := { s.state with positional := args, scriptName := name } }
  let (events, t) ← executeIsolated h r script h.enterChild true xtrace child
  let t := mergeSubEvents h (restoreArguments s t) events
  return match t.lastSubstStatus with
    | some code => t.setStatus code
    | none => t

/-- `call_shell_script`: `sh -c text`, `sh file` and their `-n` forms. -/
def callShellScript (argv : List String) (s : Runtime W) : Run W (Runtime W) :=
  if argv.length < 2 then .ok s
  else
    let (noexec, xtrace, idx) := parseShellFlags (argv.drop 1) 1 false false
    if argv[idx]? = some "-c" then
      match argv[idx + 1]? with
      | none => .ok s
      | some script =>
        if noexec then .ok (checkScriptSyntax h script "sh" s)
        else runShellChild h r script argv[idx + 2]? (argv.drop (idx + 3)) xtrace s
    else
      let file := (argv[idx]?).getD ""
      match h.readScript file s.state s.world with
      | (none, w) =>
        .ok (({ s with world := w }.writeStderr h
          (argv.headD "" ++ ": " ++ file ++ ": No such file or directory\n")).setStatus 127)
      | (some (path, content), w) =>
        let s := { s with world := w }
        if noexec then .ok (checkScriptSyntax h content file s)
        else do
          let t ← runShellChild h r content (some file) (argv.drop (idx + 1)) xtrace
            (pushSource path s)
          return popSource t

/-- The state in which `call_shebang_script` runs the script. -/
def enterShebang (path : String) (argv : List String) (s : Runtime W) : Runtime W :=
  let t := resetSetOptionsForNewShell { s with state := { s.state with
    scriptName := some (argv.headD "")
    positional := argv.drop 1
    sourceStack := path :: s.state.sourceStack } }
  t.enterNested

/-- What `call_shebang_script` restores: the flags, but not the shell state. -/
def leaveShebang (saved t : Runtime W) : Runtime W :=
  { t with
    exec := saved.exec
    state := { t.state with
      lastStatus := t.exec.exitRequested.getD t.state.lastStatus
      sourceStack := t.state.sourceStack.drop 1 } }

/-- `call_shebang_script`. -/
def callShebangScript (argv : List String) (s : Runtime W) : Run W (Runtime W) :=
  let name := argv.headD ""
  match h.readScript name s.state s.world with
  | (none, w) =>
    .ok (({ s with world := w }.writeStderr h
      ("wasmsh: " ++ name ++ ": No such file or directory\n")).setStatus 127)
  | (some (path, content), w) => do
    let s := { s with world := w }
    let (events, t) ← r.executeInputInner content (enterShebang path argv s)
    return restoreArguments s (mergeSubEvents h (leaveShebang s t) events)

/-! ## 3. Utilities and the dispatch itself -/

/-- The loop of `call_find_with_exec` and `call_xargs_with_exec` over command lines. -/
def runCommandLines : List String → Int → Runtime W → Run W (Runtime W)
  | [], last, s => .ok (s.setStatus last)
  | line :: lines, last, s => do
    let (events, s) ← r.executeInputInner line s
    let s := mergeSubEvents h s events
    runCommandLines lines (if s.state.lastStatus ≠ 0 then s.state.lastStatus else last) s

/-- The commands fed by awk-style pipes, each in isolation. -/
def runCommandPipes : List (String × List Char) → Runtime W → Run W (Runtime W)
  | [], s => .ok s
  | (cmd, data) :: cmds, s => do
    let (events, s) ← executeIsolated h r cmd (h.enterInput data) false false s
    runCommandPipes cmds (mergeSubEvents h s events)

/-- `call_utility`. -/
def callUtility (argv : List String) (s : Runtime W) : Run W (Runtime W) := do
  let called := h.callUtility argv s.state s.world
  let s ← s.applyEffect h true called.1
  runCommandPipes h r called.2 s

/-- `execute_resolved_command`. -/
def executeResolvedCommand (resolved : ResolvedCommand) (argv : List String) (s : Runtime W) :
    Run W (Runtime W) :=
  match resolved with
  | .runtime kind => executeRuntimeCommand h r kind argv s
  | .shellScript => callShellScript h r argv s
  | .shebangScript => callShebangScript h r argv s
  | .function body => callShellFunction h r argv body s
  | .builtin => s.applyEffect h true (h.callBuiltin argv s.state s.world)
  | .utility =>
    match h.commandLines argv with
    | none => callUtility h r argv s
    | some (own, lines) => do
      let s ← callUtility h r own (s.pushCapture true false)
      let (captured, s) := s.popCapture
      runCommandLines h r (lines captured.stdout) 0 s
  | .external => s.applyEffect h false (h.callExternal argv s.state s.world)

/-- The interpreters a shebang line may name. -/
def isShellInterpreter (interp : String) : Bool :=
  interp = "bash" || interp = "sh" || interp.endsWith "/bash" || interp.endsWith "/sh"

/-- `execute_argv_command`. -/
def executeArgvCommand (argv : List String) (s : Runtime W) : Run W (Runtime W) :=
  let checked := s.checkResourceLimits
  let s := checked.2
  match checked.1, argv with
  | true, _ => .ok s
  | false, [] => .ok s
  | false, name :: args =>
    let argv := name :: args
    let s := (s.record (.dispatch argv)).setLastArgument (argv.getLastD "")
    match resolveCommand h s name with
    | .external =>
      if name.toList.contains '/' then
        let found := h.detectShellShebang name s.state s.world
        let s := { s with world := found.2 }
        if found.1.any isShellInterpreter then callShebangScript h r argv s
        else executeResolvedCommand h r .external argv s
      else executeResolvedCommand h r .external argv s
    | resolved => executeResolvedCommand h r resolved argv s

/-- `execute_command_keyword` and `execute_exec_keyword` after their operands. -/
def executeWithoutFunctions (argv : List String) (s : Runtime W) : Run W (Runtime W) :=
  executeResolvedCommand h r (resolveCommandWithoutFunctions h (argv.headD "")) argv s

/-- `try_alias_expansion`: the alias and the words after it, joined by spaces, as a
    text. -/
def aliasText (s : Runtime W) (argv : List String) : Option String :=
  if s.state.flag "SHOPT_expand_aliases" then
    (argv.head?.bind (get s.aliases ·)).map fun value =>
      " ".intercalate (value :: argv.drop 1)
  else none

/-- `try_alias_expansion` reads `argv[0]`, which panics when there are no words. -/
def aliasPanics (s : Runtime W) (argv : List String) : Bool :=
  s.state.flag "SHOPT_expand_aliases" && argv.isEmpty

/-- The expansion of the words of a command, and the check that follows it: no words
    when they expand to nothing or an expansion failed. -/
def expandChecked (words : List Word) (s : Runtime W) :
    Run W (Option (List String) × Runtime W) := do
  let expanded := h.expandArgv words s.state s.world
  let t ← s.enterChecked.applyOps expanded.1
  let checked := t.checkErrors h
  return (if checked.1 then none else expanded.2, Runtime.leaveChecked s checked.2)

/-- `execute_exec`. -/
def executeExec (e : Exec) (s : Runtime W) : Run W (Runtime W) := do
  let (words, s) ← resolveCommandSubst h r e.argv s
  let (argv, s) ← expandChecked h words s
  match argv with
  | none => return s
  | some argv => do
    let saves := savePrefixAssignmentTargets s e.env
    let s ← executeAssignments h r e.env s
    if aliasPanics s argv then .error s
    else
      match aliasText s argv with
      | some text => do
        let (events, s) ← r.executeInputInner text s
        return restorePrefixAssignments saves argv (mergeSubEvents h s events)
      | none => do
        let s ← withRedirections h r e.redirections
          (fun s => r.executeArgvCommand argv (traceCommand h argv s)) s
        return restorePrefixAssignments saves argv s

end Interp

end Wasmsh

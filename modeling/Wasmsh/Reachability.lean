import Wasmsh.Steps

/-!
# The interpreter goes by updates and scopes

For each function of the interpreter, under the assumption that the functions it
re-enters do so (`Walks`): its result is reached by a run of updates and scopes.  By
induction on the depth this holds of `interp n` for every `n`, and then of the driver.
-/

namespace Wasmsh

open Hir IndexMap Bounded

/-- The re-entered functions go by updates and scopes. -/
structure Walks {W P : Type} (h : Host W P) (r : Recs W P) : Prop where
  executeBody : ∀ body s, Goes h id s (r.executeBody body s)
  executeCommand : ∀ cmd s, Goes h id s (r.executeCommand cmd s)
  executeArgvCommand : ∀ argv s, Goes h id s (r.executeArgvCommand argv s)
  executeWithoutFunctions : ∀ argv s, Goes h id s (r.executeWithoutFunctions argv s)
  executeInputInner : ∀ input s, Goes h Prod.snd s (r.executeInputInner input s)
  whileTurn : ∀ isUntil c ran last s, Goes h id s (r.whileTurn isUntil c ran last s)
  arithForTurn : ∀ c ran last s, Goes h id s (r.arithForTurn c ran last s)
  drive : ∀ stages pipeStderr p finished s,
    Goes h Prod.snd s (r.drive stages pipeStderr p finished s)

namespace Interp

variable {W P : Type} {h : Host W P} {r : Recs W P} (walks : Walks h r) (s : Runtime W)

include walks

/-! ## 1. Traps, isolated runs, substitutions -/

theorem goes_runTrapAndMerge (handlerVar ignoreVar : String) :
    Goes h id s (runTrapAndMerge h r handlerVar ignoreVar s) := by
  unfold runTrapAndMerge
  split
  · exact .refl s
  · next handler _ =>
    apply Goes.scopeThen (.trap s) (walks.executeInputInner handler s.enterTrap)
    rintro ⟨events, t⟩
    apply Goes.after (reach_mergeSubEvents events)
    dsimp only
    split
    · exact reach_setStatus _
    · exact .refl _

theorem goes_runDebugTrapIfNeeded : Goes h id s (runDebugTrapIfNeeded h r s) := by
  unfold runDebugTrapIfNeeded
  split
  · exact .refl s
  · exact goes_runTrapAndMerge walks s _ _

theorem goes_runReturnTrapIfNeeded : Goes h id s (runReturnTrapIfNeeded h r s) := by
  unfold runReturnTrapIfNeeded
  split
  · exact .refl s
  · exact goes_runTrapAndMerge walks s _ _

theorem goes_runErrTrapIfNeeded (l : AndOr) : Goes h id s (runErrTrapIfNeeded h r l s) := by
  unfold runErrTrapIfNeeded
  split
  · exact goes_runTrapAndMerge walks s _ _
  · exact .refl s

theorem goes_runExitTrapIfNeeded (endedNormally : Bool) :
    Goes h Prod.snd s (runExitTrapIfNeeded r endedNormally s) := by
  unfold runExitTrapIfNeeded
  split
  · exact .refl s
  · split
    · exact .refl s
    · next handler _ =>
      split
      · exact .refl s
      · apply Goes.after ((reach_requestExit none).trans (reach_setStatus _))
        apply Goes.scopeThen (.trap _) (walks.executeInputInner handler _)
        rintro ⟨events, t⟩
        exact (reach_requestExit _).trans (reach_setStatus _)

theorem goes_handlePostAndOr (l : AndOr) : Goes h id s (handlePostAndOr h r l s) := by
  apply Goes.bind (goes_runErrTrapIfNeeded walks s l)
  intro t
  split
  · exact reach_requestExit _
  · exact .refl t

omit walks in
theorem goes_expandValue (value : Option Word) : Goes h Prod.snd s (expandValue h value s) := by
  unfold expandValue
  split
  · exact .refl s
  · exact Goes.bind (goes_applyOps _) (fun s => .refl s)

omit walks in
theorem goes_evalInteger (text : String) : Goes h Prod.snd s (evalInteger h text s) :=
  Goes.bind (goes_applyOps _) (fun s => .refl s)

omit walks in
theorem goes_vmAssignValue (name value : String) :
    Goes h id s (vmAssignValue h name value s) := by
  unfold vmAssignValue
  split
  · exact goes_applyOps _
  · have hvalue : Goes h Prod.snd s (vmScalarValue h name value s) := by
      unfold vmScalarValue
      split
      · exact goes_evalInteger s _
      · exact .refl s
    exact Goes.bind hvalue (fun p => goes_setVar name p.1)

omit walks in
theorem goes_vmExpandValue (value : Option Word) :
    Goes h (fun x => x.2.2) s (vmExpandValue h value s) := by
  apply Sat.scope (.checked s)
  apply Leaves.bind (goes_expandValue _ value)
  rintro ⟨value, t⟩
  exact Leaves.done (reach_consumeErrors t) rfl

omit walks in
theorem goes_vmReadonlyError (name : String) : Goes h id s (vmReadonlyError h name s) := by
  apply Sat.scope (.checked s)
  apply Leaves.bind (goes_applyOps _)
  intro t
  exact Leaves.done (reach_expansionError (fun _ msg => reach_writeVisibleStderr msg) t) rfl

omit walks in
theorem goes_vmAssign (name : String) (value : Option Word) :
    Goes h id s (vmAssign h name value s) := by
  apply Goes.bind (goes_vmExpandValue s value)
  rintro ⟨failed, value, s⟩
  dsimp only
  split
  · exact .refl _
  · split
    · exact Goes.bind (goes_vmReadonlyError s name) (fun s => reach_setStatus 1)
    · exact Goes.bind (goes_vmAssignValue _ name value) (fun s => reach_setStatus 0)

omit walks in
theorem goes_vmExpandWords (ws : List Word) : Goes h Prod.snd s (vmExpandWords h ws s) := by
  induction ws generalizing s with
  | nil => exact .refl s
  | cons w ws ih =>
    apply Goes.bind (goes_expandValue s (some w))
    rintro ⟨arg, s⟩
    apply Goes.bind (ih s)
    rintro ⟨args, s⟩
    exact .refl s

omit walks in
theorem goes_vmExpandArgv (words : List Word) : Goes h Prod.snd s (vmExpandArgv h words s) := by
  apply Sat.scope (.checked s)
  apply Leaves.bind (goes_vmExpandWords _ words)
  rintro ⟨argv, t⟩
  exact Leaves.done (reach_consumeErrors t) rfl

omit walks in
theorem goes_vmExecuteBuiltin (name : String) (words : List Word) (redirs : List Redirection) :
    Goes h id s (vmExecuteBuiltin h name words redirs s) := by
  apply Goes.bind (goes_vmExpandArgv s words)
  rintro ⟨argv, s⟩
  cases argv with
  | none => exact .refl s
  | some argv => exact Goes.after (.update (.unpaid s argv)) (goes_applyEffect _ _)

omit walks in
/-- The VM's loop re-enters nothing; each instruction takes a step of the budget. -/
theorem goes_runWithExecutor (code : List Ir) (fuel pc : Nat) :
    Goes h id s (runWithExecutor h code fuel pc s) := by
  induction fuel generalizing pc s with
  | zero =>
    unfold runWithExecutor
    split
    · exact .refl s
    · dsimp only
      split
      · next hstep => exact .update (.vmStop s _ (Prod.ext (by simpa using hstep) rfl))
      · next hstep =>
        exact .after (.update (.vmStep s _ (Prod.ext (by simpa using hstep) rfl))) (.here _)
  | succ fuel ih =>
    unfold runWithExecutor
    split
    · exact .refl s
    · next i _ =>
      dsimp only
      split
      · next hstep => exact .update (.vmStop s _ (Prod.ext (by simpa using hstep) rfl))
      · next hstep =>
        have hpaid : s.vm.beginStep = (true, s.vm.beginStep.2) :=
          Prod.ext (by simpa using hstep) rfl
        have hstepped : Reach h s { s with vm := s.vm.beginStep.2 } :=
          .update (.vmStep s _ hpaid)
        cases i with
        | assign name value =>
          apply Goes.after (.update (.vmAssign s _ name hpaid))
          exact Goes.bind (goes_vmAssign _ name value) fun s => ih s _
        | executeBuiltin name argv redirs =>
          exact Goes.after hstepped
            (Goes.bind (goes_vmExecuteBuiltin _ name argv redirs) fun s => ih s _)
        | jumpIfFailure target | jumpIfSuccess target =>
          apply Goes.after hstepped
          dsimp only
          split
          · exact ih _ _
          · exact ih _ _
        | returnLastStatus => exact hstepped
        | ret status => exact hstepped.trans (reach_setStatus _)
        | nop => exact Goes.after hstepped (ih _ _)

omit walks in
theorem goes_executeIrProgram (code : List Ir) : Goes h id s (executeIrProgram h code s) :=
  goes_runWithExecutor s code _ 0

omit walks in
theorem goes_setXtrace (xtrace : Bool) {s : Runtime W} : Goes h id s (setXtrace xtrace s) := by
  unfold setXtrace
  split
  · exact goes_setVar _ _
  · exact .refl s

theorem goes_executeIsolated (input : String) (enter : W → W) (newProcess xtrace : Bool) :
    Goes h Prod.snd s (executeIsolated h r input enter newProcess xtrace s) := by
  apply Sat.scope (.isolated s enter newProcess)
  apply Leaves.bind (goes_setXtrace xtrace)
  intro t
  apply Leaves.bind (walks.executeInputInner input t)
  rintro ⟨events, t⟩
  apply Leaves.bind (goes_runExitTrapIfNeeded walks t false)
  rintro ⟨trapEvents, t⟩
  exact Leaves.done (.refl t) rfl

theorem goes_executeSubst (inner : List Char) : Goes h Prod.snd s (executeSubst h r inner s) := by
  apply Goes.bind (goes_executeIsolated walks s _ _ _ _)
  rintro ⟨events, t⟩
  exact reach_mergeSubEvents _

theorem goes_executeSubsts (inners : List (List Char)) :
    Goes h Prod.snd s (executeSubsts h r inners s) := by
  induction inners generalizing s with
  | nil => exact .refl s
  | cons inner rest ih =>
    apply Goes.bind (goes_executeSubst walks s inner)
    rintro ⟨out, s⟩
    apply Goes.bind (ih s)
    rintro ⟨outs, s⟩
    exact .refl s

theorem goes_resolvePart (p : WordPart) : Goes h Prod.snd s (resolvePart h r p s) := by
  unfold resolvePart
  split
  · apply Goes.bind (goes_executeSubst walks s _)
    rintro ⟨out, s⟩
    exact .refl s
  · apply Goes.bind (goes_executeSubsts walks s _)
    rintro ⟨outs, s⟩
    exact .refl s
  · exact .refl s

theorem goes_resolveQuoted (ps : List WordPart) :
    Goes h Prod.snd s (resolveParts.resolveQuoted h r ps s) := by
  induction ps generalizing s with
  | nil => exact .refl s
  | cons p rest ih =>
    apply Goes.bind (goes_resolvePart walks s p)
    rintro ⟨p, s⟩
    apply Goes.bind (ih s)
    rintro ⟨rest, s⟩
    exact .refl s

theorem goes_resolveParts (ps : List WordPart) : Goes h Prod.snd s (resolveParts h r ps s) := by
  induction ps generalizing s with
  | nil => exact .refl s
  | cons p rest ih =>
    have hpart : ∀ s, Goes h Prod.snd s (do
        let part ← resolvePart h r p s
        let parts ← resolveParts h r rest part.2
        return (part.1 :: parts.1, parts.2)) := by
      intro s
      apply Goes.bind (goes_resolvePart walks s p)
      rintro ⟨p, s⟩
      apply Goes.bind (ih s)
      rintro ⟨rest, s⟩
      exact .refl s
    cases p with
    | doubleQuoted qs =>
      apply Goes.bind (goes_resolveQuoted walks s qs)
      rintro ⟨qs, s⟩
      apply Goes.bind (ih s)
      rintro ⟨rest, s⟩
      exact .refl s
    | _ => exact hpart s

theorem goes_resolveCommandSubst (ws : List Word) :
    Goes h Prod.snd s (resolveCommandSubst h r ws s) := by
  induction ws generalizing s with
  | nil => exact .refl s
  | cons w ws ih =>
    apply Goes.bind (goes_resolveParts walks s w.parts)
    rintro ⟨parts, s⟩
    apply Goes.bind (ih s)
    rintro ⟨ws, s⟩
    exact .refl s

theorem goes_resolveRedirections (ds : List Redirection) :
    Goes h Prod.snd s (resolveRedirections h r ds s) := by
  induction ds generalizing s with
  | nil => exact .refl s
  | cons d ds ih =>
    apply Goes.bind (goes_resolveParts walks s d.target.parts)
    rintro ⟨parts, s⟩
    apply Goes.bind (ih s)
    rintro ⟨ds, s⟩
    exact .refl s

theorem goes_resolveValue (value : Option Word) :
    Goes h Prod.snd s (resolveValue h r value s) := by
  unfold resolveValue
  split
  · exact .refl s
  · next w =>
    apply Goes.bind (goes_resolveParts walks s w.parts)
    rintro ⟨parts, s⟩
    exact .refl s

theorem goes_expandAssignmentValue (value : Option Word) :
    Goes h Prod.snd s (expandAssignmentValue h r value s) :=
  Goes.bind (goes_resolveValue walks s value) (fun p => goes_expandValue p.2 p.1)

omit walks in
theorem goes_assignValue (name value : String) (isAppend : Bool) :
    Goes h id s (assignValue h name value isAppend s) := by
  unfold assignValue
  split
  · exact goes_applyOps _
  · have hvalue : Goes h Prod.snd s (resolveScalarAssignmentValue h name value isAppend s) := by
      unfold resolveScalarAssignmentValue
      dsimp only
      split
      · exact goes_evalInteger s _
      · exact .refl s
    exact Goes.bind hvalue (fun p => goes_setVar name p.1)

theorem goes_executeAssignment (a : Assignment) :
    Goes h id s (executeAssignment h r a s) := by
  unfold executeAssignment
  dsimp only
  split
  · exact (Runs.update (.assign s a.name)).trans
      ((reach_writeStderr _).trans (reach_setStatus 1))
  · split
    · apply Goes.bind (goes_expandAssignmentValue walks s a.value)
      rintro ⟨value, s⟩
      exact Goes.after (.update (.assign s a.name)) (goes_applyOps _)
    · apply Goes.bind (goes_expandAssignmentValue walks s a.value)
      rintro ⟨value, s⟩
      exact Goes.after (.update (.assign s a.name)) (goes_assignValue _ _ _ _)

theorem goes_executeAssignments (as : List Assignment) :
    Goes h id s (executeAssignments h r as s) := by
  induction as generalizing s with
  | nil => exact .refl s
  | cons a as ih => exact Goes.bind (goes_executeAssignment walks s a) ih

theorem goes_withRedirections (redirs : List Redirection) {f : Runtime W → Run W (Runtime W)}
    (hf : ∀ s, Goes h id s (f s)) : Goes h id s (withRedirections h r redirs f s) := by
  unfold withRedirections
  split
  · exact hf s
  · apply Goes.bind (goes_resolveRedirections walks s redirs)
    rintro ⟨redirs, s⟩
    apply Goes.bind (goes_applyEffect _ _)
    intro t
    split
    · apply Goes.bind (hf t)
      intro u
      exact reach_world _
    · exact .refl t

/-! ## 2. Dispatch -/

omit walks in
theorem reach_restorePrefixAssignments (saves : List (String × Option ShellVar))
    (argv : List String) : Reach h s (restorePrefixAssignments saves argv s) := by
  exact .update (.restored s saves argv)

omit walks in
theorem reach_traceCommand (argv : List String) : Reach h s (traceCommand h argv s) := by
  unfold traceCommand
  split
  · exact reach_writeStderr _
  · exact .refl s

omit walks in
theorem goes_executeLocal (args : List String) : Goes h id s (executeLocal args s) := by
  induction args generalizing s with
  | nil => exact reach_setStatus 0
  | cons arg args ih =>
    apply Goes.after (.update (.control s s.exec.breakDepth s.exec.loopContinue
      s.exec.returnRequested s.exec.exitRequested (s.exec.localSaveStack ++
        [(String.ofList (arg.toList.takeWhile (· != '=')), s.state.getVar
          (String.ofList (arg.toList.takeWhile (· != '='))))])))
    exact Goes.bind (goes_setVar _ _) ih

theorem goes_executeSource (argv : List String) : Goes h id s (executeSource h r argv s) := by
  unfold executeSource
  split
  · exact .refl s
  · split
    · exact (reach_world _).trans ((reach_writeStderr _).trans (reach_setStatus 1))
    · next full code w _ =>
      apply Goes.after (reach_world w)
      apply Sat.scope (.source _ full)
      apply Sat.scopeIn (.nested _)
      apply Leaves.bind (walks.executeInputInner code _)
      rintro ⟨events, s⟩
      apply Leaves.bind (Goes.after (reach_mergeSubEvents events)
        (goes_runReturnTrapIfNeeded walks _))
      intro t
      exact Leaves.done (.refl t) rfl

omit walks in
theorem reach_aliases (aliases : Map String String) : Reach h s { s with aliases := aliases } :=
  .update (.tables s s.functions aliases s.lastSubstStatus)

omit walks in
theorem reach_executeAlias (args : List String) : Reach h s (executeAlias h args s) := by
  induction args generalizing s with
  | nil => exact reach_setStatus 0
  | cons arg args ih =>
    unfold executeAlias
    split
    · exact (reach_aliases s _).trans (ih _)
    · split
      · exact (reach_write _ _).trans (ih _)
      · exact (reach_writeStderr _).trans (reach_setStatus 1)

omit walks in
theorem reach_listAliases : Reach h s (listAliases h s) :=
  (reach_foldl _ (fun _ _ => reach_write _ _) s.aliases s).trans (reach_setStatus 0)

omit walks in
theorem reach_executeUnalias (args : List String) : Reach h s (executeUnalias h args s) := by
  induction args generalizing s with
  | nil => exact reach_setStatus 0
  | cons arg args ih =>
    unfold executeUnalias
    split
    · exact (reach_aliases s _).trans (ih _)
    · split
      · exact (reach_aliases s _).trans (ih _)
      · exact (reach_writeStderr _).trans (reach_setStatus 1)

omit walks in
theorem reach_noteBuiltinLocal (s : Runtime W) (name : String) (args : List String) :
    Reach h s (noteBuiltinLocal name args s) := by
  unfold noteBuiltinLocal
  split
  · exact .update (.builtinLocal s _)
  · exact .refl s

theorem goes_executeRuntimeCommand (kind : RuntimeCommandKind) (argv : List String) :
    Goes h id s (executeRuntimeCommand h r kind argv s) := by
  cases kind with
  | local_ => exact goes_executeLocal _ _
  | break_ =>
    exact .trans (.update (.control s _ s.exec.loopContinue s.exec.returnRequested
      s.exec.exitRequested s.exec.localSaveStack)) (reach_setStatus 0)
  | continue_ =>
    exact .trans (.update (.control s s.exec.breakDepth true s.exec.returnRequested
      s.exec.exitRequested s.exec.localSaveStack)) (reach_setStatus 0)
  | return_ =>
    dsimp only [executeRuntimeCommand]
    split
    · exact (reach_writeStderr _).trans (reach_setStatus 1)
    · exact .trans (.update (.control s s.exec.breakDepth s.exec.loopContinue (some _)
        s.exec.exitRequested s.exec.localSaveStack)) (reach_setStatus _)
  | exit_ => exact (reach_requestExit _).trans (reach_setStatus _)
  | eval =>
    apply Goes.bind (walks.executeInputInner _ s)
    rintro ⟨events, s⟩
    exact reach_mergeSubEvents events
  | source => exact goes_executeSource walks s argv
  | «alias» =>
    dsimp only [executeRuntimeCommand]
    split
    · exact reach_listAliases s
    · exact reach_executeAlias s _
  | unalias =>
    dsimp only [executeRuntimeCommand]
    split
    · exact (reach_writeStderr _).trans (reach_setStatus 1)
    · exact reach_executeUnalias s _
  | builtinKeyword =>
    dsimp only [executeRuntimeCommand]
    split
    · exact reach_setStatus 0
    · next name args _ =>
      split
      · exact .after (reach_noteBuiltinLocal s name args) (goes_applyEffect _ _)
      · exact (reach_writeStderr _).trans (reach_setStatus 1)
  | commandKeyword =>
    dsimp only [executeRuntimeCommand]
    split
    · exact reach_setStatus 0
    · exact walks.executeWithoutFunctions _ s
    · exact goes_applyEffect _ _
  | execKeyword =>
    dsimp only [executeRuntimeCommand]
    split
    · exact reach_setStatus 0
    · exact walks.executeWithoutFunctions _ s
  | _ => exact goes_applyEffect _ _

omit walks in
theorem goes_restoreLocals (locals : List (String × Option String)) :
    Goes h id s (restoreLocals locals s) := by
  induction locals generalizing s with
  | nil => exact .refl s
  | cons e locals ih =>
    rcases e with ⟨name, _ | value⟩
    · exact Goes.after (reach_unsetVar name) (ih _)
    · exact Goes.bind (goes_setVar _ _) ih

/-- The frame stands around the body and the restoring of the locals. -/
theorem goes_callShellFunction (argv : List String) (body : Command) :
    Goes h id s (callShellFunction h r argv body s) := by
  unfold callShellFunction
  apply Goes.after (.update (.enterRecursion s))
  dsimp only
  split
  · next reason _ => exact .trans (.update (.recursionStop _ reason)) (reach_writeStderr _)
  · apply Sat.scope (.frame _ (argv.headD "") (argv.drop 1))
    rw [← bind_assoc]
    apply Leaves.scopeThen (.body _)
      (Goes.bind (walks.executeCommand body _) (goes_runReturnTrapIfNeeded walks))
    intro t
    apply Leaves.bind (goes_restoreLocals _ _)
    intro u
    exact Leaves.done (.refl u) rfl

omit walks in
theorem reach_checkScriptSyntax (script name : String) :
    Reach h s (checkScriptSyntax h script name s) := by
  unfold checkScriptSyntax
  split
  · exact reach_setStatus 0
  · exact (reach_writeStderr _).trans (reach_setStatus 2)

theorem goes_runShellChild (script : String) (name : Option String) (args : List String)
    (xtrace : Bool) : Goes h id s (runShellChild h r script name args xtrace s) := by
  apply Goes.scopeThen (.arguments s name args) (goes_executeIsolated walks _ _ _ _ _)
  rintro ⟨events, t⟩
  apply Goes.after (reach_mergeSubEvents events)
  dsimp only
  split
  · exact reach_setStatus _
  · exact .refl _

theorem goes_callShellScript (argv : List String) : Goes h id s (callShellScript h r argv s) := by
  unfold callShellScript
  split
  · exact .refl s
  · dsimp only
    split
    · split
      · exact .refl s
      · split
        · exact reach_checkScriptSyntax s _ _
        · exact goes_runShellChild walks s _ _ _ _
    · split
      · exact (reach_world _).trans ((reach_writeStderr _).trans (reach_setStatus 127))
      · next path content w _ =>
        apply Goes.after (reach_world w)
        split
        · exact reach_checkScriptSyntax _ _ _
        · apply Sat.scope (.source _ path)
          apply Leaves.bind (goes_runShellChild walks _ _ _ _ _)
          intro t
          exact Leaves.done (.refl t) rfl

theorem goes_callShebangScript (argv : List String) :
    Goes h id s (callShebangScript h r argv s) := by
  unfold callShebangScript
  dsimp only
  split
  · exact (reach_world _).trans ((reach_writeStderr _).trans (reach_setStatus 127))
  · next path content w _ =>
    apply Goes.after (reach_world w)
    apply Sat.scope (.arguments _ (some (argv.headD "")) (argv.drop 1))
    apply Leaves.scopeThen (.shebang _ path) (walks.executeInputInner content _)
    rintro ⟨events, t⟩
    exact Leaves.done (reach_mergeSubEvents events) rfl

theorem goes_runCommandLines (lines : List String) (last : Int) :
    Goes h id s (runCommandLines h r lines last s) := by
  induction lines generalizing s last with
  | nil => exact reach_setStatus last
  | cons line lines ih =>
    apply Goes.bind (walks.executeInputInner line s)
    rintro ⟨events, s⟩
    exact Goes.after (reach_mergeSubEvents events) (ih _ _)

theorem goes_runCommandPipes (cmds : List (String × List Char)) :
    Goes h id s (runCommandPipes h r cmds s) := by
  induction cmds generalizing s with
  | nil => exact .refl s
  | cons e cmds ih =>
    apply Goes.bind (goes_executeIsolated walks s _ _ _ _)
    rintro ⟨events, s⟩
    exact Goes.after (reach_mergeSubEvents events) (ih _)

theorem goes_callUtility (argv : List String) : Goes h id s (callUtility h r argv s) :=
  Goes.bind (goes_applyEffect _ _) (fun t => goes_runCommandPipes walks t _)

theorem goes_executeResolvedCommand (resolved : ResolvedCommand) (argv : List String) :
    Goes h id s (executeResolvedCommand h r resolved argv s) := by
  cases resolved with
  | runtime kind => exact goes_executeRuntimeCommand walks s kind argv
  | shellScript => exact goes_callShellScript walks s argv
  | shebangScript => exact goes_callShebangScript walks s argv
  | function body => exact goes_callShellFunction walks s argv body
  | builtin => exact goes_applyEffect _ _
  | utility =>
    dsimp only [executeResolvedCommand]
    split
    · exact goes_callUtility walks s argv
    · next own lines _ =>
      apply Goes.scopeThen (.capture s true false) (goes_callUtility walks _ own)
      intro t
      exact goes_runCommandLines walks _ _ _
  | external => exact goes_applyEffect _ _

/-- The call of a command line, after the step of the budget that it takes. -/
theorem goes_dispatch {t : Runtime W} (name : String) (args : List String)
    (hcheck : s.checkResourceLimits = (false, t)) :
    Goes h id (t.record (.dispatch (name :: args)))
      (executeArgvCommand h r (name :: args) s) := by
  unfold executeArgvCommand
  rw [hcheck]
  dsimp only
  apply Goes.after (reach_setLastArgument ((name :: args).getLastD ""))
  split
  · split
    · apply Goes.after (reach_world _)
      split
      · exact goes_callShebangScript walks _ _
      · exact goes_executeResolvedCommand walks _ _ _
    · exact goes_executeResolvedCommand walks _ _ _
  · exact goes_executeResolvedCommand walks _ _ _

theorem goes_executeArgvCommand (argv : List String) :
    Goes h id s (executeArgvCommand h r argv s) := by
  have hpaid := reach_charge (h := h) s
  rcases hcheck : s.checkResourceLimits with ⟨stop, t⟩
  rw [hcheck] at hpaid
  cases stop with
  | true =>
    unfold executeArgvCommand
    rw [hcheck]
    exact hpaid
  | false =>
    cases argv with
    | nil =>
      unfold executeArgvCommand
      rw [hcheck]
      exact hpaid
    | cons name args =>
      exact Goes.after (.update (.dispatch s t (name :: args) hcheck))
        (goes_dispatch walks s name args hcheck)

theorem goes_executeWithoutFunctions (argv : List String) :
    Goes h id s (executeWithoutFunctions h r argv s) :=
  goes_executeResolvedCommand walks s _ argv

omit walks in
theorem goes_expandChecked (words : List Word) :
    Goes h Prod.snd s (expandChecked h words s) := by
  apply Sat.scope (.checked s)
  apply Leaves.bind (goes_applyOps _)
  intro t
  exact Leaves.done (reach_checkErrors t) rfl

theorem goes_executeExec (e : Exec) : Goes h id s (executeExec h r e s) := by
  apply Goes.bind (goes_resolveCommandSubst walks s e.argv)
  rintro ⟨words, s⟩
  apply Goes.bind (goes_expandChecked s words)
  rintro ⟨argv, s⟩
  dsimp only
  split
  · exact .refl _
  · next argv =>
    apply Goes.bind (goes_executeAssignments walks _ e.env)
    intro s
    split
    · exact .here _
    · split
      · next text _ =>
        apply Goes.bind (walks.executeInputInner text s)
        rintro ⟨events, s⟩
        exact (reach_mergeSubEvents events).trans (reach_restorePrefixAssignments _ _ _)
      · apply Goes.bind (goes_withRedirections walks s _ (fun s =>
          Goes.after (reach_traceCommand s argv) (walks.executeArgvCommand argv _)))
        intro t
        exact reach_restorePrefixAssignments _ _ _

/-! ## 3. Compound commands -/

theorem goes_executeCondition (cond : List CompleteCommand) :
    Goes h id s (executeCondition r cond s) := by
  apply Sat.scope (.condition s)
  apply Leaves.bind (walks.executeBody cond _)
  intro t
  exact Leaves.done (.refl t) rfl

theorem goes_executeElifs (elifs : List Elif) (elseBody : Option (List CompleteCommand)) :
    Goes h id s (executeElifs r elifs elseBody s) := by
  induction elifs generalizing s with
  | nil =>
    cases elseBody with
    | some body => exact walks.executeBody body s
    | none => exact reach_setStatus 0
  | cons e elifs ih =>
    apply Goes.bind (goes_executeCondition walks s e.condition)
    intro s
    split
    · exact walks.executeBody e.thenBody s
    · exact ih s

theorem goes_executeIf (c : If) : Goes h id s (executeIf r c s) := by
  apply Goes.bind (goes_executeCondition walks s c.condition)
  intro s
  split
  · exact walks.executeBody c.thenBody s
  · exact goes_executeElifs walks s _ _

omit walks in
theorem reach_handleLoopControl : Reach h s (handleLoopControl s).2 := by
  unfold handleLoopControl
  split
  · exact .update (.control s _ s.exec.loopContinue s.exec.returnRequested s.exec.exitRequested
      s.exec.localSaveStack)
  · exact .update (.control s s.exec.breakDepth false s.exec.returnRequested
      s.exec.exitRequested s.exec.localSaveStack)

omit walks in
/-- A turn of a loop begins with a step of the budget. -/
theorem goes_charged {go : Run W (Runtime W)} {e : Event} {status : Int}
    (hupdate : ∀ t, s.checkResourceLimits = (false, t) → Update h s (t.record e))
    (hgo : Goes h id (s.checkResourceLimits.2.record e) go) :
    Goes h id s (if s.checkResourceLimits.1 then
      .ok (s.checkResourceLimits.2.setStatus status) else go) := by
  split
  · exact (reach_charge s).trans (reach_setStatus status)
  · next hcheck =>
    exact Goes.after (.update (hupdate _ (Prod.ext (by simpa using hcheck) rfl))) hgo

theorem goes_whileTurn (isUntil : Bool) (c : Loop) (ranBody : Bool) (last : Int) :
    Goes h id s (whileTurn r isUntil c ranBody last s) := by
  apply goes_charged s (Update.iteration s)
  apply Goes.bind (goes_executeCondition walks _ c.condition)
  intro s
  split
  · exact reach_setStatus _
  · apply Goes.bind (walks.executeBody c.body s)
    intro s
    apply Goes.after (reach_handleLoopControl s)
    dsimp only [id]
    split
    · exact reach_setStatus _
    · exact walks.whileTurn _ _ _ _ _

theorem goes_forLoop (c : For) (words : List String) (ranBody : Bool) (last : Int) :
    Goes h id s (forLoop r c words ranBody last s) := by
  induction words generalizing s ranBody last with
  | nil => exact reach_setStatus _
  | cons word words ih =>
    apply goes_charged s (fun t => Update.loopVar s t c.varName word)
    apply Goes.bind (goes_setVar _ _)
    intro s
    apply Goes.bind (walks.executeBody c.body s)
    intro s
    dsimp only [id]
    split
    · exact .trans (.update (.control s _ s.exec.loopContinue s.exec.returnRequested
        s.exec.exitRequested s.exec.localSaveStack)) (reach_setStatus _)
    · split
      · exact Goes.after (.update (.control s s.exec.breakDepth false s.exec.returnRequested
          s.exec.exitRequested s.exec.localSaveStack)) (ih _ _ _)
      · split
        · exact reach_setStatus _
        · exact ih _ _ _

theorem goes_splitForPart (ifs : List Char) (quoted : Bool) (p : WordPart) (f : ForFields) :
    Goes h Prod.snd s (splitForPart h r ifs quoted p f s) := by
  have hsubst : Goes h Prod.snd s (substOutput h r p s) := by
    unfold substOutput
    split
    · exact goes_executeSubst walks s _
    · exact .refl s
  apply Goes.bind hsubst
  rintro ⟨out, s⟩
  apply Goes.bind (goes_applyOps _)
  intro s
  exact .refl s

theorem goes_splitQuotedParts (ifs : List Char) (ps : List WordPart) (f : ForFields) :
    Goes h Prod.snd s (splitQuotedParts h r ifs ps f s) := by
  induction ps generalizing f s with
  | nil => exact .refl s
  | cons p ps ih =>
    apply Goes.bind (goes_splitForPart walks s ifs true p f)
    rintro ⟨f, s⟩
    exact ih s f

theorem goes_splitForParts (ifs : List Char) (ps : List WordPart) (f : ForFields) :
    Goes h Prod.snd s (splitForParts h r ifs ps f s) := by
  induction ps generalizing f s with
  | nil => exact .refl s
  | cons p ps ih =>
    have hpart : Goes h Prod.snd s (do
        let split ← splitForPart h r ifs false p f s
        splitForParts h r ifs ps split.1 split.2) := by
      apply Goes.bind (goes_splitForPart walks s ifs false p f)
      rintro ⟨f, s⟩
      exact ih s f
    cases p with
    | doubleQuoted qs =>
      apply Goes.bind (goes_splitQuotedParts walks s ifs qs _)
      rintro ⟨f, s⟩
      exact ih s f
    | _ => exact hpart

theorem goes_splitForWords (ws : List Word) : Goes h Prod.snd s (splitForWords h r ws s) := by
  induction ws generalizing s with
  | nil => exact .refl s
  | cons w ws ih =>
    have hword : Goes h Prod.snd s (splitForWord h r w s) := by
      apply Goes.bind (goes_splitForParts walks s _ w.parts _)
      rintro ⟨f, s⟩
      exact .refl s
    apply Goes.bind hword
    rintro ⟨first, s⟩
    apply Goes.bind (ih s)
    rintro ⟨fields, s⟩
    exact .refl s

theorem goes_expandForWords (words : Option (List Word)) :
    Goes h Prod.snd s (expandForWords h r words s) := by
  cases words with
  | none => exact .refl s
  | some ws =>
    apply Goes.bind (goes_splitForWords walks s ws)
    rintro ⟨fields, s⟩
    exact .refl s

theorem goes_executeForLoop (c : For) : Goes h id s (executeForLoop h r c s) := by
  apply Goes.bind (goes_expandForWords walks s c.words)
  rintro ⟨words, s⟩
  exact goes_forLoop walks s c words false 0

omit walks in
theorem goes_matchPatterns (nocase : Bool) (value : String) (ps : List Word) :
    Goes h Prod.snd s (matchPatterns h nocase value ps s) := by
  induction ps generalizing s with
  | nil => exact .refl s
  | cons p ps ih =>
    apply Goes.bind (goes_applyOps _)
    intro s
    split
    · exact .refl s
    · exact ih s

theorem goes_caseItems (nocase : Bool) (value : String) (items : List CaseItem)
    (fallthrough : Bool) : Goes h id s (caseItems h r nocase value items fallthrough s) := by
  induction items generalizing s fallthrough with
  | nil => exact .refl s
  | cons item items ih =>
    have hmatch : Goes h Prod.snd s
        (itemMatches h nocase value item.patterns fallthrough s) := by
      unfold itemMatches
      split
      · exact .refl s
      · exact goes_matchPatterns s _ _ _
    apply Goes.bind hmatch
    rintro ⟨matched, s⟩
    dsimp only
    split
    · apply Goes.bind (walks.executeBody item.body s)
      intro s
      split
      · exact .refl s
      · exact ih s true
      · exact ih s false
    · exact ih s false

theorem goes_executeCase (word : Word) (items : List CaseItem) :
    Goes h id s (executeCase h r word items s) :=
  Goes.bind (goes_applyOps _) (fun t => goes_caseItems walks t _ _ items false)

omit walks in
theorem goes_arithEffect (expr : String) : Goes h id s (arithEffect h expr s) := by
  unfold arithEffect
  split
  · exact .refl s
  · exact goes_applyOps _

theorem goes_arithForTurn (c : ArithFor) (ranBody : Bool) (last : Int) :
    Goes h id s (arithForTurn h r c ranBody last s) := by
  apply goes_charged s (Update.iteration s)
  apply Goes.bind (goes_arithEffect _ c.cond)
  intro s
  split
  · exact reach_setStatus _
  · apply Goes.bind (walks.executeBody c.body s)
    intro s
    apply Goes.after (reach_handleLoopControl s)
    dsimp only [id]
    split
    · exact reach_setStatus _
    · exact Goes.bind (goes_arithEffect _ c.step) (fun t => walks.arithForTurn _ _ _ t)

theorem goes_executeArithFor (c : ArithFor) : Goes h id s (executeArithFor h r c s) :=
  Goes.bind (goes_arithEffect s c.init) (fun t => goes_arithForTurn walks t c false 0)

omit walks in
theorem reach_printSelectMenu (words : List String) : Reach h s (printSelectMenu h words s) :=
  reach_foldl _ (fun _ _ => reach_writeStderr _) _ _

theorem goes_selectLoop (c : For) (words replies : List String) :
    Goes h id s (selectLoop h r c words replies s) := by
  induction replies generalizing s with
  | nil => exact .refl s
  | cons reply replies ih =>
    apply Goes.after (.update (.selectTurn s))
    apply Goes.bind (goes_setVar _ _)
    intro s
    apply Goes.bind (goes_setVar _ _)
    intro s
    apply Goes.bind (walks.executeBody c.body s)
    intro s
    apply Goes.after (reach_handleLoopControl s)
    dsimp only [id]
    split
    · exact .refl _
    · split
      · exact Goes.after (reach_printSelectMenu _ words) (ih _)
      · exact ih _

theorem goes_executeSelect (c : For) (redirs : List Redirection) :
    Goes h id s (executeSelect h r c redirs s) := by
  apply Goes.bind (goes_resolveRedirections walks s redirs)
  rintro ⟨redirs, s⟩
  apply Goes.bind (goes_applyEffect _ _)
  intro s
  split
  · exact .refl s
  · apply Goes.bind (goes_expandForWords walks s c.words)
    rintro ⟨words, s⟩
    dsimp only
    split
    · exact .refl s
    · apply Goes.after ((reach_printSelectMenu s words).trans (reach_world _))
      exact goes_selectLoop walks _ c words _

omit walks in
theorem goes_restoreTrap (name : String) (value : Option String) :
    Goes h id s (restoreTrap name value s) := by
  cases value with
  | some v => exact goes_setVar _ _
  | none => exact reach_unsetVar name

theorem goes_subshellBody (body : List CompleteCommand) :
    Goes h id s (subshellBody h r body s) := by
  apply Goes.bind (walks.executeBody body s)
  intro t
  apply Goes.after ((reach_requestExit none).trans (reach_setStatus _))
  apply Goes.bind (goes_runExitTrapIfNeeded walks _ false)
  rintro ⟨events, t⟩
  exact (reach_mergeSubEvents events).trans (reach_setStatus _)

/-- The exit request set aside stands around the whole, the scope of the variables
    around the body and its EXIT trap. -/
theorem goes_executeSubshell (body : List CompleteCommand) :
    Goes h id s (executeSubshell h r body s) := by
  apply Sat.scope (.subshell s)
  have hunset : Reach h (s.requestExit none) { s.requestExit none with
      state := (s.state.unsetVar "_TRAP_EXIT").unsetVar "_TRAP_IGNORE_EXIT" } :=
    (reach_unsetVar "_TRAP_EXIT").trans (reach_unsetVar "_TRAP_IGNORE_EXIT")
  apply Leaves.after hunset
  apply Leaves.scopeThen (.newScope _) (goes_subshellBody walks _ body)
  intro t
  apply Leaves.bind (goes_restoreTrap _ _ _)
  intro t
  apply Leaves.bind (goes_restoreTrap _ _ _)
  intro t
  exact Leaves.done (.refl t) rfl

theorem goes_executeCommandBody (cmd : Command) :
    Goes h id s (executeCommandBody h r cmd s) := by
  cases cmd with
  | exec e => exact goes_executeExec walks s e
  | assign as redirs =>
    apply Goes.after (.update (.tables s s.functions s.aliases none))
    apply Goes.bind (goes_executeAssignments walks _ as)
    intro s
    apply Goes.bind (goes_resolveRedirections walks s redirs)
    rintro ⟨redirs, s⟩
    apply Goes.bind (goes_applyEffect _ _)
    intro s
    exact .trans (.update (.tables s s.functions s.aliases none)) (reach_setStatus _)
  | ifCmd c redirs => exact goes_withRedirections walks s redirs (goes_executeIf walks · c)
  | whileLoop c redirs =>
    exact goes_withRedirections walks s redirs (goes_whileTurn walks · false c false 0)
  | untilLoop c redirs =>
    exact goes_withRedirections walks s redirs (goes_whileTurn walks · true c false 0)
  | forLoop c redirs => exact goes_withRedirections walks s redirs (goes_executeForLoop walks · c)
  | group body redirs => exact goes_withRedirections walks s redirs (walks.executeBody body)
  | subshell body redirs =>
    exact goes_withRedirections walks s redirs (goes_executeSubshell walks · body)
  | caseCmd word items redirs =>
    exact goes_withRedirections walks s redirs (goes_executeCase walks · word items)
  | functionDef name body =>
    exact .trans (.update (.tables s _ s.aliases s.lastSubstStatus)) (reach_setStatus 0)
  | redirectOnly redirs =>
    apply Goes.bind (goes_resolveRedirections walks s redirs)
    rintro ⟨redirs, s⟩
    apply Goes.bind (goes_applyEffect _ _)
    intro s
    exact reach_setStatus 0
  | doubleBracket words => exact Goes.bind (goes_applyEffect _ _) (fun _ => reach_setStatus _)
  | arithCommand expr => exact Goes.bind (goes_applyOps _) (fun _ => reach_setStatus _)
  | arithFor c redirs =>
    exact goes_withRedirections walks s redirs (goes_executeArithFor walks · c)
  | select c redirs => exact goes_executeSelect walks s c redirs

theorem goes_executeCommand (cmd : Command) : Goes h id s (executeCommand h r cmd s) :=
  Goes.bind (goes_runDebugTrapIfNeeded walks s) (fun t => goes_executeCommandBody walks t cmd)

/-! ## 4. Pipelines, lists, texts -/

omit walks in
theorem goes_resolveStreamingPipelineArgv (cmd : Command) :
    Goes h Prod.snd s (resolveStreamingPipelineArgv h cmd s) := by
  cases cmd with
  | exec e =>
    dsimp only [resolveStreamingPipelineArgv]
    split
    · exact .refl s
    · exact goes_expandChecked s e.argv
  | _ => exact .refl s

omit walks in
theorem goes_compileStages (cmds : List Command) (first : Bool) :
    Goes h Prod.snd s (compileStages h cmds first s) := by
  induction cmds generalizing s first with
  | nil => exact .refl s
  | cons cmd cmds ih =>
    apply Goes.bind (goes_resolveStreamingPipelineArgv s cmd)
    rintro ⟨argv, s⟩
    apply Goes.bind (ih s false)
    rintro ⟨stages, s⟩
    exact .refl s

omit walks in
theorem goes_unsupported : Goes h id s (executeScheduledSingleStage.unsupported h s) :=
  (reach_setStatus 1).trans (reach_writeStderr _)

theorem goes_executeScheduledSingleStage (stage : PipelineStage) :
    Goes h id s (executeScheduledSingleStage h r stage s) := by
  cases stage with
  | bufferedArgv argv => exact Goes.after (reach_traceCommand s argv) (walks.executeArgvCommand _ _)
  | bufferedHir cmd => exact walks.executeCommand cmd s
  | native argv =>
    dsimp only [executeScheduledSingleStage]
    split
    · apply Goes.after (.update (.unpaid s argv))
      exact Goes.bind (goes_applyEffect _ _) (fun _ => reach_setStatus _)
    · exact goes_unsupported s
  | external argv => exact goes_unsupported s

omit walks in
theorem reach_noteLastArgument (arg : Option String) : Reach h s (noteLastArgument arg s) := by
  cases arg with
  | some arg => exact reach_setLastArgument arg
  | none => exact .refl s

theorem goes_runSinglePipelineStage (cmd : Command) (stage : PipelineStage)
    (lastArg : Option String) : Goes h id s (runSinglePipelineStage h r cmd stage lastArg s) := by
  unfold runSinglePipelineStage
  split
  · exact Goes.bind (walks.executeCommand cmd s) (fun _ => reach_setPipestatus _)
  · apply Goes.bind (goes_executeScheduledSingleStage walks s stage)
    intro s
    exact (reach_noteLastArgument s lastArg).trans (reach_setPipestatus _)

theorem goes_executeBufferedStage (stage : PipelineStage) :
    Goes h id s (executeBufferedStage r stage s) := by
  cases stage with
  | bufferedArgv argv => exact walks.executeArgvCommand argv s
  | bufferedHir cmd => exact walks.executeCommand cmd s
  | _ => exact .refl s

theorem goes_runBufferedStage (stage : PipelineStage) (pipeStderr : Bool) :
    Goes h Prod.snd s (runBufferedStage h r stage pipeStderr s) := by
  apply Goes.scopeThen (.capture s true pipeStderr) (goes_executeBufferedStage walks _ stage)
  intro t
  exact reach_world _

theorem goes_pollProcess (stages : List PipelineStage) (pipeStderr : List Bool) (idx : Nat)
    (finished : Bool) (p : P) :
    Goes h (fun x => x.2.2) s (pollProcess h r stages pipeStderr idx finished p s) := by
  unfold pollProcess
  split
  · exact .refl s
  · apply Goes.after (reach_world _)
    dsimp only
    split
    · apply Goes.bind (goes_runBufferedStage walks _ _ _)
      rintro ⟨captured, s⟩
      exact .refl s
    · exact .refl _

theorem goes_pollProcesses (stages : List PipelineStage) (pipeStderr : List Bool) (n : Nat)
    (finished : List Bool) (p : P) :
    Goes h (fun x => x.2.2.2) s (pollProcesses h r stages pipeStderr n finished p s) := by
  induction n generalizing s finished p with
  | zero => exact .refl s
  | succ n ih =>
    apply Goes.bind (goes_pollProcess walks s _ _ _ _ _)
    rintro ⟨answer, p, s⟩
    apply Goes.bind (ih s _ p)
    rintro ⟨moved, finished, p, s⟩
    exact .refl s

omit walks in
theorem reach_drainFinalPipe (chunks : List (List Char)) :
    Reach h s (drainFinalPipe h chunks s).2 := by
  induction chunks generalizing s with
  | nil => exact .refl s
  | cons chunk chunks ih =>
    unfold drainFinalPipe
    apply (reach_write true chunk).trans
    dsimp only
    split
    · exact .refl _
    · exact ih _

theorem goes_drive (stages : List PipelineStage) (pipeStderr : List Bool) (p : P)
    (finished : List Bool) : Goes h Prod.snd s (drive h r stages pipeStderr p finished s) := by
  unfold drive
  dsimp only
  split
  · exact reach_charge s
  · next hcheck =>
    apply Goes.after (.update (.iteration s _ (Prod.ext (by simpa using hcheck) rfl)))
    apply Goes.bind (goes_pollProcesses walks _ _ _ _ _ _)
    rintro ⟨moved, finished, p, s⟩
    apply Goes.after (.update (.syncPipe s (h.bufferedPipeBytes p)))
    dsimp only
    split
    · exact .refl _
    · apply Goes.after (reach_drainFinalPipe _ (h.drainFinalPipe p).1)
      split
      · exact .refl _
      · exact walks.drive _ _ _ _ _

theorem goes_executeStages (stages : List (PipelineStage × Option String))
    (pipeStderr : List Bool) (pipefail : Bool) :
    Goes h id s (executeStages h r stages pipeStderr pipefail s) := by
  apply Goes.after (reach_world (h.startPipeline (stages.map (·.1)) pipeStderr s.state s.world).2)
  apply Goes.bind (goes_drive walks _ _ _ _ _)
  rintro ⟨p, s⟩
  apply Goes.after (reach_world (h.finishPipeline p s.world).2.2)
  apply Goes.after (reach_foldl (fun s e => s.write h false e.1) (fun _ _ => reach_write _ _)
    ((h.finishPipeline p s.world).2.1.zipIdx.filter
      (fun e => !(pipeStderr.getD e.2 false) && !e.1.isEmpty)) _)
  apply Goes.after (reach_noteLastArgument _ (stages.filterMap (·.2)).getLast?)
  apply Goes.after (reach_setPipestatus (h.finishPipeline p s.world).1)
  dsimp only
  split
  · exact .refl _
  · exact reach_setStatus _

theorem goes_executeScheduledPipeline (pl : Pipeline) :
    Goes h id s (executeScheduledPipeline h r pl s) := by
  apply Goes.bind (goes_compileStages s pl.commands true)
  rintro ⟨stages, s⟩
  dsimp only
  split
  · exact goes_runSinglePipelineStage walks s _ _ _
  · exact goes_executeStages walks s _ _ _

omit walks in
theorem reach_negateStatus (negated : Bool) : Reach h s (negateStatus negated s) := by
  unfold negateStatus
  split
  · exact reach_setStatus _
  · exact .refl s

omit walks in
theorem reach_emitPipelineTiming (timed posix : Bool) :
    Reach h s (emitPipelineTiming h timed posix s) := by
  unfold emitPipelineTiming
  split
  · exact reach_write _ _
  · exact .refl s

theorem goes_executePipeline (pl : Pipeline) : Goes h id s (executePipeline h r pl s) := by
  apply Goes.bind (goes_executeScheduledPipeline walks s pl)
  intro s
  exact (reach_negateStatus s pl.negated).trans (reach_emitPipelineTiming _ _ _)

theorem goes_chainRest (rest : List (AndOrOp × Pipeline)) :
    Goes h id s (chainRest h r rest s) := by
  induction rest generalizing s with
  | nil => exact .refl s
  | cons m rest ih =>
    unfold chainRest
    split
    · exact Goes.bind (goes_executePipeline walks s _) ih
    · exact ih s

theorem goes_executePipelineChain (l : AndOr) : Goes h id s (executePipelineChain h r l s) :=
  Goes.bind (goes_executePipeline walks s _) (fun t => goes_chainRest walks t l.rest)

theorem goes_executeAndOr (l : AndOr) : Goes h id s (executeAndOr h r l s) := by
  unfold executeAndOr
  split
  · exact Goes.bind (goes_runDebugTrapIfNeeded walks s) (fun t => goes_executeIrProgram t _)
  · exact goes_executePipelineChain walks s l

theorem goes_executeLists (ls : List AndOr) : Goes h id s (executeLists h r ls s) := by
  induction ls generalizing s with
  | nil => exact .refl s
  | cons l ls ih =>
    unfold executeLists
    split
    · exact .refl s
    · apply Goes.bind (goes_executeAndOr walks s l)
      intro s
      split
      · exact .refl s
      · exact Goes.bind (goes_handlePostAndOr walks s l) ih

theorem goes_executeBody (body : List CompleteCommand) :
    Goes h id s (executeBody h r body s) := by
  induction body generalizing s with
  | nil => exact .refl s
  | cons cc body ih =>
    unfold executeBody
    split
    · exact .refl s
    · apply Goes.after (reach_charge s)
      dsimp only
      split
      · exact .refl _
      · split
        · exact ih _
        · exact Goes.bind (goes_executeLists walks _ cc.list) ih

omit walks in
theorem reach_maybeWriteVerboseInput (input : String) (cc : CompleteCommand) :
    Reach h s (maybeWriteVerboseInput h input cc s) := by
  unfold maybeWriteVerboseInput
  dsimp only
  split
  · apply (reach_write false _).trans
    split
    · exact .refl _
    · exact reach_writeStderr _
  · exact .refl s

omit walks in
theorem reach_setLineno (line : Nat) :
    Reach h s { s with state := { s.state with lineno := line } } :=
  .update (.marks s s.state.lastStatus s.state.lastArgument line)

theorem goes_executeItems (input : String) (items : List CompleteCommand) :
    Goes h id s (executeItems h r input items s) := by
  induction items generalizing s with
  | nil => exact .refl s
  | cons cc items ih =>
    unfold executeItems
    split
    · exact .refl s
    · apply Goes.after ((reach_setLineno s _).trans (reach_maybeWriteVerboseInput _ input cc))
      dsimp only
      split
      · exact ih _
      · exact Goes.bind (goes_executeLists walks _ cc.list) ih

theorem goes_executeInputInner (input : String) :
    Goes h Prod.snd s (executeInputInner h r input s) := by
  unfold executeInputInner
  apply Goes.after (.update (.enterRecursion s))
  dsimp only
  split
  · next reason _ => exact .update (.recursionStop _ reason)
  · split
    · exact (reach_setStatus 2).trans (.update (.exitRecursion _))
    · apply Goes.bind (goes_executeItems walks _ input _)
      intro s
      exact .trans (.update (.drain s)) (.update (.exitRecursion _))

omit walks in
theorem walks_outOfFuel : Walks h (outOfFuel : Recs W P) where
  executeBody _ s := .here s
  executeCommand _ s := .here s
  executeArgvCommand _ s := .here s
  executeWithoutFunctions _ s := .here s
  executeInputInner _ s := .here s
  whileTurn _ _ _ _ s := .here s
  arithForTurn _ _ _ s := .here s
  drive _ _ _ _ s := .here s

theorem walks_next : Walks h (next h r) where
  executeBody body s := goes_executeBody walks s body
  executeCommand cmd s := goes_executeCommand walks s cmd
  executeArgvCommand argv s := goes_executeArgvCommand walks s argv
  executeWithoutFunctions argv s := goes_executeWithoutFunctions walks s argv
  executeInputInner input s := goes_executeInputInner walks s input
  whileTurn isUntil c ran last s := goes_whileTurn walks s isUntil c ran last
  arithForTurn c ran last s := goes_arithForTurn walks s c ran last
  drive stages pipeStderr p finished s := goes_drive walks s stages pipeStderr p finished

omit walks in
/-- **The interpreter goes by updates and scopes**, at every depth. -/
theorem walks_interp (h : Host W P) (n : Nat) : Walks h (interp h n) := by
  induction n with
  | zero => exact walks_outOfFuel
  | succ n ih => exact walks_next ih

end Interp

end Wasmsh

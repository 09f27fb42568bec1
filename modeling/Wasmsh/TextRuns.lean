import Wasmsh.ErrorReports

/-!
# Texts that are run as commands

A text that is one simple command, its words written literally, run by
`execute_input_inner`.  There are four ways to the command: the VM, a native stage, a
buffered stage and `execute_exec`.  On each of them the first thing that the log of the run
gets is the call of the command with its words, unless the command is an alias, whose text
is run in its place.
-/

namespace Wasmsh

open Hir IndexMap Bounded Wasmsh.Parser

variable {W P α β : Type} {h : Host W P} {s t : Runtime W} {leave : Runtime W → Runtime W}
variable {π : α → Runtime W} {ρ : β → Runtime W} {argv : List String} {words : List Word}

/-! ## 1. The log -/

theorem Change.log (hc : Change s t) : s.trace.log <:+ t.trace.log := by
  cases hc with
  | accounting _ hacc =>
    rcases hacc with ⟨w, vm, captures, exhausted, reason, rfl⟩
    exact List.suffix_rfl
  | event u e hacc =>
    rcases hacc with ⟨w, vm, captures, exhausted, reason, rfl⟩
    exact List.suffix_cons _ _
  | _ => exact List.suffix_rfl

theorem Opens.log_enter {s' : Runtime W} (ho : Opens h s s' leave) :
    s'.trace.log = s.trace.log := by
  cases ho with
  | isolated enter newProcess => cases newProcess <;> rfl
  | _ => rfl

theorem Opens.log_leave {s' : Runtime W} (ho : Opens h s s' leave) (t : Runtime W) :
    (leave t).trace.log = t.trace.log := by
  cases ho with
  | capture stdout stderr =>
    show t.popCapture.2.trace.log = t.trace.log
    unfold Runtime.popCapture
    split
    · rfl
    · rfl
  | _ => rfl

theorem log_chained : Chained (fun s t : Runtime W => s.trace.log <:+ t.trace.log)
    fun s t => s.trace.log <:+ t.trace.log where
  refl _ := List.suffix_rfl
  trans := List.IsSuffix.trans
  cut _ := List.suffix_rfl
  extend := List.IsSuffix.trans

/-- A run only adds to the log. -/
theorem log_grows (hst : Reach h s t) : s.trace.log <:+ t.trace.log :=
  log_chained.of_runs (fun _ _ hu => hu.change.log)
    (fun _ _ _ _ ho hrun => by rwa [ho.log_leave, ← ho.log_enter]) hst

theorem log_grows_halt (hst : Halt h s t) : s.trace.log <:+ t.trace.log :=
  log_chained.of_stops (fun _ _ hu => hu.change.log)
    (fun _ _ _ _ ho hrun => by rwa [ho.log_leave, ← ho.log_enter])
    (fun _ _ _ _ ho hstop => by rwa [← ho.log_enter]) hst

/-- What the log of `t` has behind that of `s` begins with the call of the words. -/
def Begins (argv : List String) (s t : Runtime W) : Prop :=
  .dispatch argv :: s.trace.log <:+ t.trace.log

/-- The first thing that the computation does is to call a command with the words. -/
abbrev Starts (argv : List String) (π : α → Runtime W) (s : Runtime W) (x : Run W α) : Prop :=
  Sat (Begins argv) (Begins argv) π s x

theorem Starts.bind {x : Run W α} {f : α → Run W β} (hx : Starts argv π s x)
    (hf : ∀ a, Goes h ρ (π a) (f a)) : Starts argv ρ s (x >>= f) := by
  cases x with
  | error t => exact hx
  | ok a =>
    have ha := hf a
    show Starts argv ρ s (f a)
    cases hfa : f a with
    | error u =>
      rw [hfa] at ha
      exact List.IsSuffix.trans hx (log_grows_halt ha)
    | ok b =>
      rw [hfa] at ha
      exact List.IsSuffix.trans hx (log_grows ha)

theorem Begins.of_log {u : Runtime W} (hu : Begins argv t u) (hlog : t.trace.log = s.trace.log) :
    Begins argv s u := by
  unfold Begins
  rw [← hlog]
  exact hu

theorem Starts.of_log {x : Run W α} (hx : Starts argv π t x)
    (hlog : t.trace.log = s.trace.log) : Starts argv π s x := by
  cases x with
  | error u => exact Begins.of_log hx hlog
  | ok a => exact Begins.of_log hx hlog

/-- A computation that goes on where the call was noted. -/
theorem Starts.of_goes {x : Run W α} (hx : Goes h π (t.record (.dispatch argv)) x)
    (hlog : t.trace.log = s.trace.log) : Starts argv π s x := by
  cases x with
  | error u => exact Begins.of_log (t := t) (log_grows_halt hx) hlog
  | ok a => exact Begins.of_log (t := t) (log_grows hx) hlog

/-! ## 2. States in which texts are run -/

/-- The state inside a text, at one of its lines. -/
def Runtime.inText (s : Runtime W) (line : Nat) : Runtime W :=
  { s with
    state := { s.state with lineno := line }
    vm := { s.vm with budget := { s.vm.budget with
      recursionDepth := s.vm.budget.recursionDepth + 1 } } }

/-- Commands are executed and their words expanded: nothing stops the run, the options that
    skip commands or write them out first are off, there is no DEBUG trap and no pending
    error, the budget has a step left, and as many texts as `levels` may be run inside each
    other. -/
structure Runtime.CanRun (s : Runtime W) (levels : Nat) : Prop where
  goes_on : s.shouldStopExecution = false
  noexec : s.state.flag "SHOPT_n" = false
  verbose : s.state.flag "SHOPT_v" = false
  xtrace : s.state.flag "SHOPT_x" = false
  no_trap : s.trapsQuiet = true ∨ s.trapHandler "_TRAP_DEBUG" "_TRAP_IGNORE_DEBUG" = none
  quiet : s.state.quiet = true
  budget : s.vm.beginStep.1 = true
  depth : s.vm.limits.recursionLimit = 0 ∨
    s.vm.budget.recursionDepth + levels ≤ s.vm.limits.recursionLimit

theorem Vm.beginStep_fst (vm : Vm) : vm.beginStep.1 = (!vm.cancelled && !vm.outputLimitHit &&
    !decide (0 < vm.limits.stepLimit ∧ vm.limits.stepLimit ≤ vm.budget.steps)) := by
  unfold Vm.beginStep BudgetTracker.beginStep
  cases vm.cancelled with
  | true => rfl
  | false =>
    cases vm.outputLimitHit with
    | true => rfl
    | false =>
      by_cases hstop : 0 < vm.limits.stepLimit ∧ vm.limits.stepLimit ≤ vm.budget.steps
      · simp [hstop]
      · simp [hstop]

namespace Runtime.CanRun

variable {levels : Nat}

theorem inText (hcan : s.CanRun (levels + 1)) (line : Nat) : (s.inText line).CanRun levels where
  goes_on := hcan.goes_on
  noexec := hcan.noexec
  verbose := hcan.verbose
  xtrace := hcan.xtrace
  no_trap := hcan.no_trap
  quiet := hcan.quiet
  budget := by
    rw [← hcan.budget, Vm.beginStep_fst, Vm.beginStep_fst]
    rfl
  depth := hcan.depth.imp id fun hle => by
    show s.vm.budget.recursionDepth + 1 + levels ≤ s.vm.limits.recursionLimit
    omega

theorem checkResourceLimits (hcan : s.CanRun levels) :
    s.checkResourceLimits = (false, { s with vm := s.vm.beginStep.2 }) := by
  have hgoes := hcan.goes_on
  simp only [Runtime.shouldStopExecution, Bool.or_eq_false_iff] at hgoes
  rw [Runtime.checkResourceLimits, hgoes.2, if_neg Bool.false_ne_true]
  dsimp only
  rw [hcan.budget, if_pos rfl]

theorem enterRecursion (hcan : s.CanRun (levels + 1)) :
    s.vm.budget.enterRecursion s.vm.limits.recursionLimit =
      (none, { s.vm.budget with recursionDepth := s.vm.budget.recursionDepth + 1 }) := by
  unfold BudgetTracker.enterRecursion
  refine if_neg ?_
  rcases hcan.depth with hzero | hle
  · omega
  · omega

theorem runDebugTrap (hcan : s.CanRun levels) (r : Recs W P) :
    Interp.runDebugTrapIfNeeded h r s = .ok s := by
  unfold Interp.runDebugTrapIfNeeded
  split
  · rfl
  · next hloud =>
    rw [Interp.runTrapAndMerge, hcan.no_trap.resolve_left hloud]

end Runtime.CanRun

namespace Interp

/-! ## 3. Words that are written literally -/

section Words

variable {r : Recs W P}

theorem requireRuntimeExpansion_of_literal {ps : List WordPart} {text : List Char}
    (hps : Ir.literalPartText.literalPartsText ps = some text) :
    requireRuntimeExpansion ps = false := by
  fun_induction requireRuntimeExpansion ps generalizing text with
  | case1 => rfl
  | case2 t ps ih | case3 t ps ih =>
    rcases Option.bind_eq_some_iff.mp hps with ⟨_, hrest, _⟩
    exact ih hrest
  | case4 qs ps ih₁ ih₂ =>
    rcases Option.bind_eq_some_iff.mp hps with ⟨_, hqs, hrest⟩
    rcases Option.bind_eq_some_iff.mp hrest with ⟨_, hrest, _⟩
    rw [ih₁ hqs, ih₂ hrest]
    rfl
  | case5 p ps h₁ h₂ h₃ =>
    rcases Option.bind_eq_some_iff.mp hps with ⟨_, hp, _⟩
    cases p with
    | literal t => exact absurd rfl (h₁ t)
    | singleQuoted t => exact absurd rfl (h₂ t)
    | doubleQuoted qs => exact absurd rfl (h₃ qs)
    | _ => cases hp

theorem resolvePart_of_literal {p : WordPart} {text : List Char}
    (hp : Ir.literalPartText p = some text) : resolvePart h r p s = .ok (p, s) := by
  cases p with
  | commandSubstitution inner => cases hp
  | arithmetic e => cases hp
  | _ => rfl

theorem resolveQuoted_of_literal {ps : List WordPart} {text : List Char}
    (hps : Ir.literalPartText.literalPartsText ps = some text) :
    resolveParts.resolveQuoted h r ps s = .ok (ps, s) := by
  induction ps generalizing text with
  | nil => rfl
  | cons p ps ih =>
    rcases Option.bind_eq_some_iff.mp hps with ⟨_, hp, hrest⟩
    rcases Option.bind_eq_some_iff.mp hrest with ⟨_, hrest, _⟩
    simp only [resolveParts.resolveQuoted, resolvePart_of_literal hp, ih hrest, bind, Except.bind,
      pure, Except.pure]

theorem resolveParts_of_literal {ps : List WordPart} {text : List Char}
    (hps : Ir.literalPartText.literalPartsText ps = some text) :
    resolveParts h r ps s = .ok (ps, s) := by
  induction ps generalizing text with
  | nil => rfl
  | cons p ps ih =>
    rcases Option.bind_eq_some_iff.mp hps with ⟨_, hp, hrest⟩
    rcases Option.bind_eq_some_iff.mp hrest with ⟨_, hrest, _⟩
    have hpart := resolvePart_of_literal (h := h) (r := r) (s := s) hp
    cases p with
    | doubleQuoted qs =>
      have hqs : Ir.literalPartText.literalPartsText qs = some _ := hp
      simp only [resolveParts, resolveQuoted_of_literal hqs, ih hrest, bind, Except.bind, pure,
        Except.pure]
    | _ => simp only [resolveParts, hpart, ih hrest, bind, Except.bind, pure, Except.pure]

theorem resolveCommandSubst_of_literal (hwords : words.map Ir.literalWordText = argv.map some) :
    resolveCommandSubst h r words s = .ok (words, s) := by
  induction words generalizing argv with
  | nil => rfl
  | cons w words ih =>
    cases argv with
    | nil => cases hwords
    | cons a argv =>
      injection hwords with hw hrest
      rcases Option.map_eq_some_iff.mp hw with ⟨text, htext, -⟩
      simp only [resolveCommandSubst, resolveParts_of_literal htext, ih hrest, bind, Except.bind,
        pure, Except.pure]

theorem any_requireRuntimeExpansion (hwords : words.map Ir.literalWordText = argv.map some) :
    words.any (fun w => requireRuntimeExpansion w.parts) = false := by
  rw [List.any_eq_false]
  intro w hw
  have hmem : Ir.literalWordText w ∈ argv.map some := hwords ▸ List.mem_map_of_mem hw
  rcases List.mem_map.mp hmem with ⟨a, -, ha⟩
  rcases Option.map_eq_some_iff.mp ha.symm with ⟨text, htext, -⟩
  rw [requireRuntimeExpansion_of_literal htext]
  exact Bool.false_ne_true

theorem leaveChecked_enterChecked : Runtime.leaveChecked s s.enterChecked = s := by
  have hzero : (!s.trace.checking && s.state.quiet && !s.state.quiet) = false := by
    cases s.state.quiet <;> simp
  unfold Runtime.leaveChecked Runtime.enterChecked
  dsimp only
  rw [hzero]
  rfl

/-- Words whose expansion writes nothing. -/
theorem expandChecked_of_expands (hquiet : s.state.quiet = true)
    (hargv : h.expandArgv words s.state s.world = ([], some argv)) :
    expandChecked h words s = .ok (some argv, s) := by
  have hcheck : s.enterChecked.checkErrors h = (false, s.enterChecked) :=
    pendingErrors_of_quiet hquiet
  simp only [expandChecked, hargv, Runtime.applyOps_nil, bind, Except.bind, hcheck, pure,
    Except.pure, leaveChecked_enterChecked, Bool.false_eq_true, if_false]

theorem vmExpandWords_of_expands
    (hwords : words.map (h.expandWord · s.state) = argv.map fun a => ([], a)) :
    vmExpandWords h words s = .ok (argv, s) := by
  induction words generalizing argv with
  | nil =>
    cases argv with
    | nil => rfl
    | cons a argv => cases hwords
  | cons w words ih =>
    cases argv with
    | nil => cases hwords
    | cons a argv =>
      injection hwords with hw hrest
      simp only [vmExpandWords, expandValue, hw, Runtime.applyOps_nil, ih hrest, bind, Except.bind,
        pure, Except.pure]

theorem vmExpandArgv_of_expands (hquiet : s.state.quiet = true)
    (hwords : words.map (h.expandWord · s.state) = argv.map fun a => ([], a)) :
    vmExpandArgv h words s = .ok (some argv, s) := by
  have hcheck : s.enterChecked.consumeErrors h = (false, s.enterChecked) :=
    pendingErrors_of_quiet hquiet
  simp only [vmExpandArgv, vmExpandWords_of_expands (s := s.enterChecked) hwords, bind, Except.bind,
    hcheck, pure, Except.pure, leaveChecked_enterChecked, Bool.false_eq_true, if_false]

end Words

/-! ## 4. The ways to a command -/

section Ways

variable {n levels : Nat} {name : String} {args call : List String} {text : String} {span : Span}

/-- A stage that is given to a streaming handler of the host. -/
def isStreamed (h : Host W P) (s : Runtime W) (argv : List String) : Bool :=
  s.allowExternalStreaming && h.hasStreamHandler && h.hasExternalSpec (argv.headD "") &&
    !contains s.functions (argv.headD "") && !h.isNativeStage argv true

/-- `execute_argv_command` one level deeper. -/
theorem starts_argv (hcan : s.CanRun levels) :
    Starts (name :: args) id s ((interp h (n + 1)).executeArgvCommand (name :: args) s) :=
  Starts.of_goes (goes_dispatch (walks_interp h n) s name args hcan.checkResourceLimits) rfl

/-- `execute_exec` of literal words, up to the question whether they begin with an alias. -/
theorem starts_exec (hcan : s.CanRun levels) (r : Recs W P)
    (hliteral : words.map Ir.literalWordText = (name :: args).map some)
    (hargv : h.expandArgv words s.state s.world = ([], some (name :: args)))
    (halias : ∀ text, aliasText s (name :: args) = some text →
      Starts call Prod.snd s (r.executeInputInner text s))
    (hnone : aliasText s (name :: args) = none →
      Starts call id s (r.executeArgvCommand (name :: args) s)) :
    Starts call id s (executeCommand h r (.exec ⟨words, [], []⟩) s) := by
  have hpanics : aliasPanics s (name :: args) = false := Bool.and_false _
  have htrace : traceCommand h (name :: args) s = s := by
    rw [traceCommand, hcan.xtrace, if_neg Bool.false_ne_true]
  have hbody : Starts call id s (executeExec h r ⟨words, [], []⟩ s) := by
    unfold executeExec
    cases htext : aliasText s (name :: args) <;>
      simp only [resolveCommandSubst_of_literal hliteral, bind, Except.bind,
        expandChecked_of_expands hcan.quiet hargv, executeAssignments, hpanics,
        Bool.false_eq_true, if_false, savePrefixAssignmentTargets, List.map_nil, htext,
        withRedirections, List.isEmpty_nil, if_true, htrace]
    case some text =>
      apply Starts.bind (halias text htext)
      rintro ⟨events, t⟩
      exact (reach_mergeSubEvents events).trans (reach_restorePrefixAssignments _ _ _)
    case none =>
      exact Starts.bind (h := h) (hnone htext) fun t => reach_restorePrefixAssignments t _ _
  rw [executeCommand, hcan.runDebugTrap]
  exact hbody

/-- A pipeline of one stage of literal words, on whichever way its command is run. -/
theorem starts_pipeline (hcan : s.CanRun levels) (r : Recs W P)
    (hnative : ∀ argv st w, h.isNativeStage argv true = true →
      (h.runNativeStage argv st w).isSome = true)
    (hliteral : words.map Ir.literalWordText = (name :: args).map some)
    (hargv : h.expandArgv words s.state s.world = ([], some (name :: args)))
    (hcommand : Starts call id s (r.executeCommand (.exec ⟨words, [], []⟩) s))
    (hnone : aliasText s (name :: args) = none →
      call = name :: args ∧ isStreamed h s (name :: args) = false ∧
        Starts call id s (r.executeArgvCommand (name :: args) s)) :
    Starts call id s (executePipeline h r (commandList (.exec ⟨words, [], []⟩)).first s) := by
  have hstages : compileStages h [.exec ⟨words, [], []⟩] true s =
      .ok ([(compileStage h s (.exec ⟨words, [], []⟩) true (some (name :: args)),
        (name :: args).getLast?)], s) := by
    simp only [compileStages, resolveStreamingPipelineArgv, List.isEmpty_nil, Bool.not_true,
      any_requireRuntimeExpansion hliteral, Bool.or_self, Bool.false_eq_true, if_false,
      expandChecked_of_expands hcan.quiet hargv, bind, Except.bind, pure, Except.pure,
      Option.bind_some]
  have htrace : traceCommand h (name :: args) s = s := by
    rw [traceCommand, hcan.xtrace, if_neg Bool.false_ne_true]
  have hsingle : Starts call id s (executeScheduledSingleStage h r
      (compileStage h s (.exec ⟨words, [], []⟩) true (some (name :: args))) s) := by
    unfold compileStage
    dsimp only
    split
    · exact hcommand
    · next hplain =>
      have htext : aliasText s (name :: args) = none := by
        unfold aliasText
        by_cases hon : s.state.flag "SHOPT_expand_aliases" = true
        · have hget : get s.aliases name = none := by
            simpa [hon, contains] using hplain
          rw [if_pos hon, List.head?_cons, Option.bind_some, hget, Option.map_none]
        · rw [if_neg hon]
      rcases hnone htext with ⟨rfl, hstreamed, hrun⟩
      split
      · rw [executeScheduledSingleStage, htrace]
        exact hrun
      · next hfunction =>
        split
        · next hstage =>
          rcases Option.isSome_iff_exists.mp (hnative _ s.state s.world hstage) with ⟨e, he⟩
          rw [executeScheduledSingleStage, he]
          refine Starts.of_goes (h := h) ?_ rfl
          exact Goes.bind (goes_applyEffect false e.1) fun t => reach_setStatus e.2
        · next hstage =>
          split
          · next hexternal =>
            rw [Bool.not_eq_true] at hfunction hstage
            rw [isStreamed, List.headD_cons, hexternal, hfunction, hstage] at hstreamed
            cases hstreamed
          · split
            · rw [executeScheduledSingleStage, htrace]
              exact hrun
            · exact hcommand
  unfold executePipeline executeScheduledPipeline
  simp only [commandList, hstages]
  show Starts call id s ((runSinglePipelineStage h r _ _ _ s) >>= _)
  refine Starts.bind (h := h) (π := id) ?_ fun t => ?_
  · unfold runSinglePipelineStage
    split
    · exact Starts.bind (h := h) hcommand fun t => reach_setPipestatus _
    · exact Starts.bind (h := h) hsingle fun t =>
        (reach_noteLastArgument t _).trans (reach_setPipestatus _)
  · exact (reach_negateStatus t _).trans (reach_emitPipelineTiming _ _ _)

/-- A builtin of the VM. -/
theorem starts_vm (hcan : s.CanRun levels) {code : List Ir}
    (hcode : lowerVmSubsetAndOr h s (commandList (.exec ⟨words, [], []⟩)) = some code)
    (hwords : words.map (h.expandWord · s.state) = argv.map fun a => ([], a)) :
    Starts argv id s (executeIrProgram h code s) := by
  have hlowered : Ir.lowerSupportedAndOr (commandList (.exec ⟨words, [], []⟩)) = some code := by
    unfold lowerVmSubsetAndOr at hcode
    split at hcode
    · exact hcode
    · cases hcode
  have hprogram : ∃ name, code = [.executeBuiltin name words [], .returnLastStatus] := by
    rcases Option.bind_eq_some_iff.mp hlowered with ⟨first, hfirst, hrest⟩
    rcases Option.bind_eq_some_iff.mp hfirst with ⟨w, -, hname⟩
    rcases Option.bind_eq_some_iff.mp hname with ⟨name, -, hname⟩
    cases hname
    exact ⟨name, (Option.some.inj hrest).symm⟩
  rcases hprogram with ⟨name, rfl⟩
  rw [executeIrProgram, runWithExecutor]
  simp only [List.getElem?_cons_zero, hcan.budget, Bool.not_true, Bool.false_eq_true, if_false]
  have hexpand := vmExpandArgv_of_expands (h := h) (s := { s with vm := s.vm.beginStep.2 })
    hcan.quiet hwords
  have hbuiltin : Starts argv id s
      (vmExecuteBuiltin h name words [] { s with vm := s.vm.beginStep.2 }) := by
    unfold vmExecuteBuiltin
    rw [hexpand]
    exact Starts.of_goes (t := { s with vm := s.vm.beginStep.2 }) (goes_applyEffect _ _) rfl
  exact Starts.bind hbuiltin fun t => goes_runWithExecutor t _ _ _

/-- A text that is one command. -/
theorem starts_input (hcan : s.CanRun (levels + 1)) (r : Recs W P) (walks : Walks h r)
    {cmd : Command} (hparse : h.parse text = .ok (commandProgram cmd span))
    (hlist : ∀ line, Starts call id (s.inText line)
      (executeAndOr h r (commandList cmd) (s.inText line))) :
    Starts call Prod.snd s (executeInputInner h r text s) := by
  have hin := hcan.inText (lineNumberForOffset text span.start)
  have hgoes := hin.goes_on
  simp only [Runtime.shouldStopExecution, Bool.or_eq_false_iff] at hgoes
  have hitems : Starts call id s (executeItems h r text (commandProgram cmd span).items
      { s with vm := { s.vm with budget := { s.vm.budget with
        recursionDepth := s.vm.budget.recursionDepth + 1 } } }) := by
    set cc : CompleteCommand := ⟨[commandList cmd], span⟩ with hcc
    set u := s.inText (lineNumberForOffset text span.start) with hu
    have hverbose : maybeWriteVerboseInput h text cc u = u := by
      rw [maybeWriteVerboseInput, hin.verbose, Bool.false_and, if_neg Bool.false_ne_true]
    show Starts call id s (executeItems h r text [cc] _)
    rw [executeItems, if_neg (by rw [Bool.not_eq_true]; exact hgoes.1.2)]
    show Starts call id s (if (maybeWriteVerboseInput h text cc u).state.flag "SHOPT_n" = true then
      executeItems h r text [] (maybeWriteVerboseInput h text cc u)
      else executeCompleteCommand h r cc (maybeWriteVerboseInput h text cc u) >>=
        executeItems h r text [])
    rw [hverbose, hin.noexec, if_neg Bool.false_ne_true]
    refine Starts.bind (h := h) (π := id) ?_ fun t => goes_executeItems walks t _ _
    rw [executeCompleteCommand, executeLists, hin.goes_on, hin.noexec, Bool.or_self,
      if_neg Bool.false_ne_true]
    refine Starts.bind (h := h) ((hlist _).of_log rfl) fun t => ?_
    split
    · exact .refl t
    · exact Goes.bind (goes_handlePostAndOr walks t _) fun u => goes_executeLists walks u []
  unfold executeInputInner
  rw [hcan.enterRecursion]
  dsimp only
  rw [hparse]
  exact Starts.bind (h := h) hitems fun t =>
    .trans (.update (.drain t)) (.update (.exitRecursion _))

end Ways

/-! ## 5. Texts of literal words -/

section Texts

variable {levels : Nat} {name : String} {args call : List String} {text : String}

theorem words_of_runsAs
    (hruns : ∀ line, RunsAs h { s.state with lineno := line } s.world text argv) :
    ∃ words span, h.parse text = .ok (simpleProgram words span) ∧
      words.map Ir.literalWordText = argv.map some ∧
      ∀ line, h.expandArgv words { s.state with lineno := line } s.world = ([], some argv) ∧
        words.map (h.expandWord · { s.state with lineno := line }) = argv.map fun a => ([], a) := by
  rcases hruns 0 with ⟨words, span, hparse, -, -, hliteral⟩
  refine ⟨words, span, hparse, hliteral, fun line => ?_⟩
  rcases hruns line with ⟨words', span', hparse', hargv, hwords, -⟩
  rw [hparse] at hparse'
  injection hparse' with hprogram
  have hcommand := commandProgram_inj hprogram
  injection hcommand with hexec
  injection hexec with heq
  rw [heq]
  exact ⟨hargv, hwords⟩

variable (hnative : ∀ argv st w, h.isNativeStage argv true = true →
  (h.runNativeStage argv st w).isSome = true)

include hnative

/-- The text of a command that is no alias calls it first of all. -/
theorem starts_command (n : Nat) (hcan : s.CanRun 1)
    (hruns : ∀ line, RunsAs h { s.state with lineno := line } s.world text (name :: args))
    (hplain : aliasText s (name :: args) = none)
    (hstreamed : isStreamed h s (name :: args) = false) :
    Starts (name :: args) Prod.snd s ((interp h (n + 3)).executeInputInner text s) := by
  rcases words_of_runsAs hruns with ⟨words, span, hparse, hliteral, hexpand⟩
  refine starts_input hcan _ (walks_interp h (n + 2)) hparse fun line => ?_
  have hin := hcan.inText line
  have hexec : Starts (name :: args) id (s.inText line)
      ((interp h (n + 2)).executeCommand (.exec ⟨words, [], []⟩) (s.inText line)) :=
    starts_exec hin _ hliteral (hexpand line).1
      (fun _ htext => absurd (hplain.symm.trans htext) (by simp)) fun _ => starts_argv hin
  unfold executeAndOr
  split
  · next code hcode =>
    rw [hin.runDebugTrap]
    exact starts_vm hin hcode (hexpand line).2
  · exact Starts.bind (h := h) (starts_pipeline hin _ hnative hliteral (hexpand line).1 hexec
      fun _ => ⟨rfl, hstreamed, starts_argv hin⟩) fun t => .refl t

/-- The text of a command that is an alias starts as the text of the alias does. -/
theorem starts_alias (n : Nat) {next : String} (hcan : s.CanRun (levels + 1))
    (hruns : ∀ line, RunsAs h { s.state with lineno := line } s.world text (name :: args))
    (halias : aliasText s (name :: args) = some next)
    (hnext : ∀ line, Starts call Prod.snd (s.inText line)
      ((interp h n).executeInputInner next (s.inText line))) :
    Starts call Prod.snd s ((interp h (n + 2)).executeInputInner text s) := by
  rcases words_of_runsAs hruns with ⟨words, span, hparse, hliteral, hexpand⟩
  refine starts_input hcan _ (walks_interp h (n + 1)) hparse fun line => ?_
  have hin := hcan.inText line
  have hexec : Starts call id (s.inText line)
      ((interp h (n + 1)).executeCommand (.exec ⟨words, [], []⟩) (s.inText line)) := by
    refine starts_exec hin _ hliteral (hexpand line).1 (fun text htext => ?_) fun hnone => ?_
    · cases halias.symm.trans htext
      exact hnext line
    · cases halias.symm.trans hnone
  -- the VM does not take an alias
  have hvm : lowerVmSubsetAndOr h (s.inText line) (commandList (simpleCommand words)) = none := by
    cases words with
    | nil => cases hliteral
    | cons w words =>
      injection hliteral with hw
      have hon : s.state.flag "SHOPT_expand_aliases" = true ∧ contains s.aliases name = true := by
        unfold aliasText at halias
        split at halias
        · next hon =>
          rcases Option.map_eq_some_iff.mp halias with ⟨value, hvalue, -⟩
          exact ⟨hon, Option.isSome_iff_exists.mpr ⟨value, hvalue⟩⟩
        · cases halias
      have hinvalid : validateVmSubsetCommand h (s.inText line) (.exec ⟨w :: words, [], []⟩) =
          false := by
        have hflag : (s.inText line).state.flag "SHOPT_expand_aliases" = true := hon.1
        have hcontains : contains (s.inText line).aliases name = true := hon.2
        simp only [validateVmSubsetCommand, List.head?_cons, Option.bind_some, hw, hflag,
          hcontains, Bool.and_self, Bool.not_true, Bool.false_and, Bool.and_false]
      simp only [lowerVmSubsetAndOr, commandList, simpleCommand, validateVmSubsetPipeline, hinvalid,
        Bool.and_false, Bool.false_and, Bool.false_eq_true, if_false]
  unfold executeAndOr
  rw [hvm]
  refine Starts.bind (h := h) (starts_pipeline hin _ hnative hliteral (hexpand line).1 hexec
    fun hnone => ?_) fun t => .refl t
  cases halias.symm.trans hnone

end Texts

end Interp

end Wasmsh

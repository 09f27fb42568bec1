import Wasmsh.Variables
import Wasmsh.Reachability
import Wasmsh.ShellHost

/-!
# Errors of expansions

An expansion reports a failure through three variables of the shell state.  The words of
a simple command, the stages of a pipeline and the values of the VM are followed by a
check that takes the error out again; arithmetic commands, assignments, `case` words,
`for` lists, `[[ ]]` operands and redirection targets are not.  The trace counts the
errors that are left pending: those raised where no check follows, and those that a check
does not take, because it takes one error and the expansion raised two.

When none is left, no command ends with an error pending.
-/

namespace Wasmsh

open Hir IndexMap Bounded

variable {W P : Type} {h : Host W P} {s t u : Runtime W} {st : ShellState} {name : String}

/-! ## 1. Quiet states -/

/-- The error variable is visible and has a text. -/
def ShellState.pending (st : ShellState) (name : String) : Bool :=
  (st.env.get name).any (fun v => v.value.asScalar != "")

namespace ShellState

theorem quiet_of_env {st st' : ShellState} (henv : st'.env = st.env) : st'.quiet = st.quiet := by
  simp [ShellState.quiet, henv]

theorem pending_of_quiet (hquiet : st.quiet = true)
    (hname : name ∈ errorVars) : st.pending name = false := by
  rw [quiet_iff] at hquiet
  have hscope : ∀ sc, quietScope sc = true →
      (IndexMap.get sc name).any (fun v => v.value.asScalar != "") = false := by
    intro sc hsc
    have hentry := List.all_eq_true.mp hsc name hname
    cases hget : IndexMap.get sc name with
    | none => rfl
    | some v => simpa [hget] using hentry
  -- the visible entry is that of some scope
  unfold ShellState.pending ShellEnv.get
  cases hfind : (st.env.inner :: st.env.outer).findSome? (IndexMap.get · name) with
  | none => rfl
  | some v =>
    rcases List.exists_of_findSome?_eq_some hfind with ⟨sc, hsc, hget⟩
    have hsc' : quietScope sc = true := by
      rcases List.mem_cons.mp hsc with rfl | hmem
      · exact hquiet.1
      · exact hquiet.2 sc hmem
    rw [← hget]
    exact hscope sc hsc'

theorem quiet_pushScope (hquiet : st.quiet = true) :
    { st with env := st.env.pushScope }.quiet = true := by
  rw [quiet_iff] at hquiet ⊢
  refine ⟨rfl, ?_⟩
  rintro sc (_ | ⟨_, hsc⟩)
  · exact hquiet.1
  · exact hquiet.2 sc hsc

theorem quiet_popScope (hquiet : st.quiet = true) :
    { st with env := st.env.popScope }.quiet = true := by
  rw [quiet_iff] at hquiet
  rw [quiet_iff]
  unfold ShellEnv.popScope
  cases houter : st.env.outer with
  | nil => exact ⟨hquiet.1, by simp [houter]⟩
  | cons sc scs =>
    rw [houter] at hquiet
    exact ⟨hquiet.2 sc (.head _), fun sc' hsc' => hquiet.2 sc' (.tail _ hsc')⟩

theorem quiet_unsetVars (names : List String) (st : ShellState) :
    StaysQuiet st (Interp.unsetVars names st) :=
  quiet_foldl quiet_unsetVar names st

end ShellState

/-! ## 2. Runs that leave no error -/

/-- What a run does to the pending errors: outside a check, a quiet state stays quiet
    unless the trace counts an error. -/
structure Reports (s t : Runtime W) : Prop where
  checking : t.trace.checking = s.trace.checking
  counts : s.trace.raised ≤ t.trace.raised
  quiet : s.trace.checking = false → t.trace.raised = s.trace.raised →
    s.state.StaysQuiet t.state

namespace Reports

theorem trans (h₁ : Reports s t) (h₂ : Reports t u) : Reports s u where
  checking := h₂.checking.trans h₁.checking
  counts := h₁.counts.trans h₂.counts
  quiet := by
    intro hoff hraised hquiet
    have hst : t.trace.raised = s.trace.raised :=
      Nat.le_antisymm (hraised ▸ h₂.counts) h₁.counts
    exact h₂.quiet (h₁.checking.trans hoff) (hraised.trans hst.symm) (h₁.quiet hoff hst hquiet)

/-- A step that notes no error and raises none. -/
theorem of_silent (htrace : t.trace.checking = s.trace.checking ∧
    t.trace.raised = s.trace.raised) (hquiet : s.state.StaysQuiet t.state) : Reports s t where
  checking := htrace.1
  counts := Nat.le_of_eq htrace.2.symm
  quiet := fun _ _ => hquiet

/-- A step that keeps the variables and notes no error. -/
theorem of_env (henv : t.state.env = s.state.env)
    (htrace : t.trace.checking = s.trace.checking ∧ t.trace.raised = s.trace.raised) :
    Reports s t :=
  of_silent htrace fun hquiet => by rw [ShellState.quiet_of_env henv]; exact hquiet

/-- A step that counts the error it leaves. -/
theorem of_noted {b : Bool} (hchecking : t.trace.checking = s.trace.checking)
    (hstate : t.state = st)
    (hraised : t.trace.raised = s.trace.raised + (!s.trace.checking && b).toNat)
    (hb : s.state.quiet = true → b = false → st.quiet = true) : Reports s t where
  checking := hchecking
  counts := by rw [hraised]; exact Nat.le_add_right _ _
  quiet := by
    intro hoff hsame hquiet
    rw [hoff, hsame] at hraised
    have hfalse : b = false := by
      cases b with
      | false => rfl
      | true => simp at hraised
    rw [hstate]
    exact hb hquiet hfalse

end Reports

theorem Accounting.reports (hacc : Accounting s t) : Reports s t := by
  rcases hacc with ⟨_, _, _, _, _, rfl⟩
  exact .of_env rfl ⟨rfl, rfl⟩

/-- The writes of a call: the trace counts an error they leave. -/
theorem reports_ops {ops : List StateOp} (hst : s.state.applyAll ops = some st) :
    Reports s { (s.noteWrites ops) with state := st } := by
  refine .of_noted rfl rfl rfl fun hquiet hb => ?_
  simpa [ShellState.raises, hst, hquiet] using hb

theorem reports_restored (saves : List (String × Option ShellVar)) (argv : List String) :
    Reports s (Interp.restorePrefixAssignments saves argv s) := by
  refine @Reports.of_noted _ _ _ (Interp.restorePrefixAssignments saves argv s).state
    (s.state.quiet && !(Interp.restorePrefixAssignments saves argv s).state.quiet) rfl rfl ?_
    fun hquiet hb => ?_
  · rw [← Bool.and_assoc]
    rfl
  · simpa [hquiet] using hb

theorem Update.reports (hu : Update h s t) : Reports s t := by
  have hpaid : ∀ {b : Bool} {t}, s.checkResourceLimits = (b, t) → Reports s t := by
    intro b t hcheck
    have hacc := Accounting.checkResourceLimits s
    rw [hcheck] at hacc
    exact hacc.reports
  cases hu with
  | inner sc hquiet => exact .of_silent ⟨rfl, rfl⟩ hquiet
  | restored saves argv => exact reports_restored saves argv
  | ops ops st hst => exact reports_ops hst
  | write stdout data => exact (Accounting.write s stdout data).reports
  | writeRouted stdout data => exact (Accounting.writeRouted s stdout data).reports
  | charge _ hcheck => exact hpaid hcheck
  | dispatch t argv hcheck | loopVar t name value hcheck | iteration t hcheck =>
    exact (hpaid hcheck).trans (.of_env rfl ⟨rfl, rfl⟩)
  | exhausted _ hcheck => exact hpaid hcheck
  | syncPipe used => exact (Accounting.syncPipeBudget s used).reports
  | _ => exact .of_env rfl ⟨rfl, rfl⟩

/-- A scope keeps the count; a check notes what it leaves pending. -/
theorem Opens.reports {s' : Runtime W} {leave : Runtime W → Runtime W}
    (ho : Opens h s s' leave) (hrun : Reports s' t) : Reports s (leave t) := by
  have hthrough : s.state.StaysQuiet s'.state → t.state.StaysQuiet (leave t).state →
      s'.trace.checking = s.trace.checking ∧ s'.trace.raised = s.trace.raised →
      (leave t).trace.checking = t.trace.checking ∧ (leave t).trace.raised = t.trace.raised →
      Reports s (leave t) := by
    intro henter hleave htrace htrace'
    exact ((Reports.of_silent htrace henter).trans hrun).trans (.of_silent htrace' hleave)
  have hsame : s'.state.env = s.state.env → (leave t).state.env = t.state.env →
      s'.trace.checking = s.trace.checking ∧ s'.trace.raised = s.trace.raised →
      (leave t).trace.checking = t.trace.checking ∧ (leave t).trace.raised = t.trace.raised →
      Reports s (leave t) := by
    intro henter hleave
    refine hthrough (fun hquiet => ?_) (fun hquiet => ?_)
    · rw [ShellState.quiet_of_env henter]
      exact hquiet
    · rw [ShellState.quiet_of_env hleave]
      exact hquiet
  cases ho with
  | isolated enter newProcess =>
    -- the variables of the parent come back, whatever the child did
    have hentered : (Interp.enterIsolated enter newProcess s).trace.checking = s.trace.checking ∧
        (Interp.enterIsolated enter newProcess s).trace.raised = s.trace.raised := by
      cases newProcess with
      | true => exact ⟨rfl, rfl⟩
      | false => exact ⟨rfl, rfl⟩
    exact {
      checking := hrun.checking.trans hentered.1
      counts := hentered.2 ▸ hrun.counts
      quiet := fun _ _ hquiet => hquiet }
  | newScope =>
    exact hthrough (fun hquiet => ShellState.quiet_pushScope hquiet)
      (fun hquiet => ShellState.quiet_popScope hquiet) ⟨rfl, rfl⟩ ⟨rfl, rfl⟩
  | shebang path =>
    refine hthrough ?_ (fun hquiet => ?_) ⟨rfl, rfl⟩ ⟨rfl, rfl⟩
    · simp only [Runtime.enterNested, Interp.resetSetOptionsForNewShell]
      intro hquiet
      exact ShellState.quiet_unsetVars Interp.newShellOptions _ hquiet
    · rw [ShellState.quiet_of_env (show (Interp.leaveShebang s t).state.env = t.state.env from rfl)]
      exact hquiet
  | capture stdout stderr =>
    refine hsame rfl (by rw [popCapture_state]) ⟨rfl, rfl⟩ ?_
    show t.popCapture.2.trace.checking = _ ∧ t.popCapture.2.trace.raised = _
    unfold Runtime.popCapture
    split
    · exact ⟨rfl, rfl⟩
    · exact ⟨rfl, rfl⟩
  | checked =>
    have hcount : s.trace.raised ≤ t.trace.raised := hrun.counts
    refine ⟨rfl, hcount.trans (Nat.le_add_right _ _), fun hoff hraised hquiet => ?_⟩
    have hsum : t.trace.raised + (!s.trace.checking && s.state.quiet && !t.state.quiet).toNat =
        s.trace.raised := hraised
    rw [hoff, hquiet] at hsum
    show t.state.quiet = true
    cases hleft : t.state.quiet with
    | true => rfl
    | false =>
      simp only [hleft, Bool.not_false, Bool.and_self, Bool.toNat_true] at hsum
      omega
  | _ => exact hsame rfl rfl ⟨rfl, rfl⟩ ⟨rfl, rfl⟩

theorem reports_chained : Chained (Reports (W := W)) (fun _ _ => True) where
  refl _ := .of_env rfl ⟨rfl, rfl⟩
  trans h₁ h₂ := h₁.trans h₂
  cut _ := trivial
  extend _ _ := trivial

theorem Reach.reports (hr : Reach h s t) : Reports s t :=
  reports_chained.of_runs (fun _ _ hu => hu.reports) (fun _ _ _ _ ho hrun => ho.reports hrun) hr

/-! ## 3. Checks -/

/-- A pending error is taken out of the state. -/
theorem takeError_of_pending (hpending : s.state.pending name = true) :
    ∃ msg, s.takeError name = (some msg,
      { s with state := { s.state with env := s.state.env.remove name } }) := by
  unfold ShellState.pending at hpending
  unfold Runtime.takeError ShellState.takePending
  cases hget : s.state.env.get name with
  | none => simp [hget] at hpending
  | some v =>
    have htext : v.value.asScalar ≠ "" := by simpa [hget] using hpending
    simp [htext]

/-- Without one the state is left as it is. -/
theorem takeError_of_quiet (hquiet : s.state.pending name = false) :
    s.takeError name = (none, s) := by
  unfold ShellState.pending at hquiet
  unfold Runtime.takeError ShellState.takePending
  cases hget : s.state.env.get name with
  | none => rfl
  | some v =>
    have htext : v.value.asScalar = "" := by simpa [hget] using hquiet
    simp [htext]

/-- With no error pending there is none to report. -/
theorem pendingErrors_of_quiet {report : Runtime W → String → Runtime W}
    (hquiet : s.state.quiet = true) : s.pendingErrors report = (false, s) := by
  have htake : ∀ name ∈ errorVars, s.takeError name = (none, s) := fun name hname =>
    takeError_of_quiet (ShellState.pending_of_quiet hquiet hname)
  unfold Runtime.pendingErrors Runtime.nounsetError Runtime.arithError Runtime.expansionError
  rw [htake "_NOUNSET_ERROR" (by decide)]
  dsimp only
  rw [htake "_ARITH_ERROR" (by decide)]
  dsimp only
  rw [htake "_SHELL_ERROR" (by decide)]

section

variable (report : Runtime W → String → Runtime W)

theorem nounsetError_of_pending (hpending : s.state.pending "_NOUNSET_ERROR" = true) :
    (s.nounsetError report).1 = true ∧ (s.nounsetError report).2.state.lastStatus = 1 := by
  rcases takeError_of_pending hpending with ⟨msg, htake⟩
  simp [Runtime.nounsetError, htake, Runtime.setStatus, Runtime.requestExit]

theorem arithError_of_pending (hpending : s.state.pending "_ARITH_ERROR" = true) :
    (s.arithError report).1 = true ∧ (s.arithError report).2.state.lastStatus = 1 := by
  rcases takeError_of_pending hpending with ⟨msg, htake⟩
  simp [Runtime.arithError, htake, Runtime.setStatus]

theorem expansionError_of_pending (hpending : s.state.pending "_SHELL_ERROR" = true) :
    (s.expansionError report).1 = true ∧ (s.expansionError report).2.state.lastStatus = 1 := by
  rcases takeError_of_pending hpending with ⟨msg, htake⟩
  unfold Runtime.expansionError
  rw [htake]
  dsimp only
  split
  · exact ⟨rfl, rfl⟩
  · exact ⟨rfl, rfl⟩

/-- A check after a failed expansion fails the command with status 1. -/
theorem pendingErrors_of_pending (hname : name ∈ errorVars)
    (hpending : s.state.pending name = true) :
    (s.pendingErrors report).1 = true ∧ (s.pendingErrors report).2.state.lastStatus = 1 := by
  unfold Runtime.pendingErrors
  cases hnounset : s.state.pending "_NOUNSET_ERROR" with
  | true =>
    have hfails := nounsetError_of_pending report hnounset
    rw [show s.nounsetError report = (true, (s.nounsetError report).2) from Prod.ext hfails.1 rfl]
    exact ⟨rfl, hfails.2⟩
  | false =>
    rw [show s.nounsetError report = (false, s) by
      simp [Runtime.nounsetError, takeError_of_quiet hnounset]]
    dsimp only
    cases harith : s.state.pending "_ARITH_ERROR" with
    | true =>
      have hfails := arithError_of_pending report harith
      rw [show s.arithError report = (true, (s.arithError report).2) from Prod.ext hfails.1 rfl]
      exact ⟨rfl, hfails.2⟩
    | false =>
      rw [show s.arithError report = (false, s) by
        simp [Runtime.arithError, takeError_of_quiet harith]]
      dsimp only
      have hshell : s.state.pending "_SHELL_ERROR" = true := by
        simp only [errorVars, List.mem_cons, List.not_mem_nil, or_false] at hname
        rcases hname with rfl | rfl | rfl
        · rw [hnounset] at hpending
          cases hpending
        · rw [harith] at hpending
          cases hpending
        · exact hpending
      exact expansionError_of_pending report hshell

end

/-- An expansion has failed: an error variable is set. -/
def ShellState.Failed (st : ShellState) : Prop := ∃ name ∈ errorVars, st.pending name = true

/-- The words of a simple command or of a stage whose expansion fails are no arguments. -/
theorem expandChecked_of_failed {words : List Word}
    (hops : s.enterChecked.applyOps (h.expandArgv words s.state s.world).1 = .ok t)
    (hfailed : t.state.Failed) :
    ∃ u, Interp.expandChecked h words s = .ok (none, u) ∧ u.state.lastStatus = 1 := by
  obtain ⟨name, hname, hpending⟩ := hfailed
  have hfails := pendingErrors_of_pending (Runtime.writeStderr h) hname hpending
  unfold Interp.expandChecked
  dsimp only [bind, Except.bind]
  rw [hops]
  dsimp only [pure, Except.pure]
  rw [Runtime.checkErrors, hfails.1]
  exact ⟨_, rfl, hfails.2⟩

/-- A value of the VM whose expansion fails is not assigned. -/
theorem vmAssign_of_failed {value : Option Word} {text : String}
    (hvalue : Interp.expandValue h value s.enterChecked = .ok (text, t))
    (hfailed : t.state.Failed) (var : String) :
    ∃ u, Interp.vmAssign h var value s = .ok u ∧ u.state.lastStatus = 1 := by
  obtain ⟨name, hname, hpending⟩ := hfailed
  have hfails := pendingErrors_of_pending (Runtime.writeVisibleStderr h) hname hpending
  unfold Interp.vmAssign Interp.vmExpandValue
  dsimp only [bind, Except.bind]
  rw [hvalue]
  dsimp only [pure, Except.pure]
  rw [Runtime.consumeErrors, hfails.1]
  exact ⟨_, rfl, hfails.2⟩

/-- A builtin of the VM whose words fail to expand is not called. -/
theorem vmExecuteBuiltin_of_failed {words : List Word} {argv : List String}
    (hwords : Interp.vmExpandWords h words s.enterChecked = .ok (argv, t))
    (hfailed : t.state.Failed) (builtin : String) (redirs : List Redirection) :
    ∃ u, Interp.vmExecuteBuiltin h builtin words redirs s = .ok u ∧ u.state.lastStatus = 1 := by
  obtain ⟨name, hname, hpending⟩ := hfailed
  have hfails := pendingErrors_of_pending (Runtime.writeVisibleStderr h) hname hpending
  unfold Interp.vmExecuteBuiltin Interp.vmExpandArgv
  dsimp only [bind, Except.bind]
  rw [hwords]
  dsimp only [pure, Except.pure]
  rw [Runtime.consumeErrors, hfails.1]
  exact ⟨_, rfl, hfails.2⟩

/-- In each of the checked places a failed expansion is reported there, with status 1: the
    words of a simple command, those of a stage (which is then run in full), and the values
    and the words of the VM. -/
structure ReportsFailures (h : Host W P) (r : Recs W P) (s : Runtime W) : Prop where
  words : ∀ (e : Exec) (words : List Word) (t u : Runtime W),
    Interp.resolveCommandSubst h r e.argv s = .ok (words, t) →
    t.enterChecked.applyOps (h.expandArgv words t.state t.world).1 = .ok u → u.state.Failed →
    ∃ v, Interp.executeExec h r e s = .ok v ∧ v.state.lastStatus = 1
  stage : ∀ (words : List Word) (first : Bool) (t : Runtime W),
    words.any (fun w => Interp.requireRuntimeExpansion w.parts) = false →
    s.enterChecked.applyOps (h.expandArgv words s.state s.world).1 = .ok t → t.state.Failed →
    ∃ v, Interp.compileStages h [.exec ⟨words, [], []⟩] first s =
      .ok ([(.bufferedHir (.exec ⟨words, [], []⟩), none)], v) ∧ v.state.lastStatus = 1
  value : ∀ (name : String) (value : Option Word) (text : String) (t : Runtime W),
    Interp.expandValue h value s.enterChecked = .ok (text, t) → t.state.Failed →
    ∃ v, Interp.vmAssign h name value s = .ok v ∧ v.state.lastStatus = 1
  builtin : ∀ (name : String) (words : List Word) (redirs : List Redirection)
    (argv : List String) (t : Runtime W),
    Interp.vmExpandWords h words s.enterChecked = .ok (argv, t) → t.state.Failed →
    ∃ v, Interp.vmExecuteBuiltin h name words redirs s = .ok v ∧ v.state.lastStatus = 1

theorem reportsFailures (h : Host W P) (r : Recs W P) (s : Runtime W) :
    ReportsFailures h r s where
  words := by
    intro e words t u hwords hops hfailed
    obtain ⟨v, hchecked, hstatus⟩ := expandChecked_of_failed hops hfailed
    refine ⟨v, ?_, hstatus⟩
    unfold Interp.executeExec
    rw [hwords]
    dsimp only [bind, Except.bind]
    rw [hchecked]
    rfl
  stage := by
    intro words first t hplain hops hfailed
    obtain ⟨v, hchecked, hstatus⟩ := expandChecked_of_failed hops hfailed
    refine ⟨v, ?_, hstatus⟩
    simp only [Interp.compileStages, Interp.resolveStreamingPipelineArgv, hplain,
      List.isEmpty_nil, Bool.not_true, Bool.false_or, Bool.false_eq_true, if_false, hchecked,
      bind, Except.bind, pure, Except.pure, Interp.compileStage, Option.bind_none]
  value := fun name _ _ _ hvalue hfailed => vmAssign_of_failed hvalue hfailed name
  builtin := fun name _ redirs _ _ hwords hfailed =>
    vmExecuteBuiltin_of_failed hwords hfailed name redirs

/-! ## 4. Commands -/

/-- **A command that leaves no error unreported ends with none pending**, for every host,
    command, depth and state; and where expansions are checked, a failed one is reported
    there, with status 1. -/
theorem no_error_pending (h : Host W P) (n : Nat) (s : Runtime W)
    (hquiet : s.state.quiet = true) (hoff : s.trace.checking = false) :
    (∀ cmd t, (Interp.interp h n).executeCommand cmd s = .ok t →
      t.trace.raised = s.trace.raised → ∀ name ∈ errorVars, t.state.pending name = false) ∧
    ReportsFailures h (Interp.interp h n) s := by
  refine ⟨fun cmd t hrun hraised name hname => ?_, reportsFailures h _ s⟩
  have hgoes := (Interp.walks_interp h n).executeCommand cmd s
  rw [hrun] at hgoes
  have hreports : Reports s t := Reach.reports hgoes
  exact ShellState.pending_of_quiet (hreports.quiet hoff hraised hquiet) hname

/-- `: $((1/0))` reports the division and leaves nothing. -/
theorem no_error_pending_of_division :
    let command : Exec := ⟨[⟨[.literal [':']]⟩, ⟨[.arithmetic ['1', '/', '0']]⟩], [], []⟩
    (∃ t, (Interp.interp bareShell 2).executeCommand (.exec command) .bare = .ok t ∧
      t.state.lastStatus = 1 ∧ ∀ name ∈ errorVars, t.state.pending name = false) ∧
    ∃ v, Interp.executeExec bareShell (Interp.interp bareShell 2) command .bare = .ok v ∧
      v.state.lastStatus = 1 := by
  intro command
  have hobserved : ((Interp.interp bareShell 2).executeCommand (.exec command)
      .bare).toOption.map (fun t => (t.trace.raised, t.state.lastStatus)) = some (0, 1) := by
    decide +kernel
  have hclaim := no_error_pending bareShell 2 .bare (by decide) (by decide)
  constructor
  · cases hrun : (Interp.interp bareShell 2).executeCommand (.exec command) .bare with
    | error u =>
      rw [hrun] at hobserved
      cases hobserved
    | ok t =>
      rw [hrun] at hobserved
      obtain ⟨hraised, hstatus⟩ := Prod.mk.inj (Option.some.inj hobserved)
      exact ⟨t, rfl, hstatus, hclaim.1 _ t hrun hraised⟩
  · exact hclaim.2.words command _ _ _ rfl rfl ⟨"_ARITH_ERROR", by decide, by decide +kernel⟩

/-- `(( 1/0 ))` ends with the error pending, and the `true` after it is blamed for it. -/
theorem division_error_stays_pending :
    ((Interp.interp (.ofScript "" []) 4).executeCommand (.arithCommand "1/0")
      .bare).toOption.map (fun t => t.state.pending "_ARITH_ERROR") = some true ∧
    ((Interp.interp (.ofScript "" []) 4).executeCommand (.arithCommand "1/0") .bare >>=
      (Interp.interp (.ofScript "" []) 4).executeCommand (.ofWords ["true"])).toOption.map
        (fun t => (t.state.lastStatus, t.state.pending "_ARITH_ERROR")) = some (1, false) := by
  decide +kernel

end Wasmsh

import Wasmsh.Library.Bounded
import Wasmsh.Interpreter

/-!
# What a run can do

Every function of the interpreter is a composition of a few updates of the runtime
(`Update`) and of scopes that are entered and left again (`Opens`).  This module says so
once, for every program, host and depth: the result of each function is reached from
its argument by a run of updates and scopes, and when the depth runs out, so is the
state it stopped in, inside scopes not left yet.  An invariant of the interpreter is
then a property of the updates and of the scopes.
-/

namespace Wasmsh

open Hir IndexMap Bounded

variable {W P : Type} {leave : Runtime W → Runtime W} {name : String}

/-! ## 1. Changes of the innermost scope -/

/-- The two states differ in the innermost scope of the variables only. -/
def InnerOnly (st st' : ShellState) : Prop :=
  ∃ sc : Scope, st' = { st with env := { st.env with inner := sc } }

namespace InnerOnly

theorem refl (st : ShellState) : InnerOnly st st := ⟨st.env.inner, rfl⟩

theorem trans {st st₁ st₂ : ShellState} (h₁ : InnerOnly st st₁) (h₂ : InnerOnly st₁ st₂) :
    InnerOnly st st₂ := by
  rcases h₁ with ⟨_, rfl⟩
  rcases h₂ with ⟨sc, rfl⟩
  exact ⟨sc, rfl⟩

theorem setEntry (st : ShellState) (name : String) (v : ShellVar) :
    InnerOnly st (st.setEntry name v) := ⟨_, rfl⟩

theorem unsetVar (st : ShellState) (name : String) : InnerOnly st (st.unsetVar name) := by
  unfold ShellState.unsetVar
  split
  · exact refl st
  · exact ⟨_, rfl⟩

theorem foldl {α : Type} (f : ShellState → α → ShellState)
    (hf : ∀ st a, InnerOnly st (f st a)) (as : List α) (st : ShellState) :
    InnerOnly st (as.foldl f st) := by
  induction as generalizing st with
  | nil => exact refl st
  | cons a as ih => exact trans (hf st a) (ih _)

end InnerOnly

/-- A write to the array element of the name stays in the innermost scope. -/
def ShellState.ownsArray (st : ShellState) (name : String) : Prop :=
  (st.env.get name).any (·.readonly) = true ∨ contains st.env.inner name = true

theorem ShellState.initIndexedArray_owns (st : ShellState) (name : String) :
    InnerOnly st (st.initIndexedArray name) ∧ (st.initIndexedArray name).ownsArray name := by
  by_cases hro : ((st.env.get name).map (·.readonly)).getD false = true
  · have hid : st.initIndexedArray name = st := by
      simp [ShellState.initIndexedArray, ShellState.initArray, hro]
    rw [hid]
    refine ⟨.refl st, .inl ?_⟩
    cases hget : st.env.get name with
    | none => simp [hget] at hro
    | some v => simpa [hget] using hro
  · simp only [ShellState.initIndexedArray, ShellState.initArray, hro]
    exact ⟨.setEntry _ _ _, .inr (contains_insert _ _ _)⟩

theorem ShellState.setArrayElement_owns (st : ShellState) (name index value : String)
    (h : st.ownsArray name) :
    InnerOnly st (st.setArrayElement name index value) ∧
      (st.setArrayElement name index value).ownsArray name := by
  unfold ShellState.setArrayElement
  cases hget : st.env.get name with
  | none => exact ⟨.setEntry _ _ _, .inr (contains_insert _ _ _)⟩
  | some v =>
    by_cases hro : v.readonly = true
    · simpa only [hro, if_true] using ⟨.refl st, h⟩
    · have hin : contains st.env.inner name = true := by
        rcases h with h | h
        · simp [hget, hro] at h
        · exact h
      simp only [hro, Bool.false_eq_true, if_false, ShellState.updateEntry, ShellEnv.getMut, hin,
        if_true]
      exact ⟨⟨_, rfl⟩, .inr (by simpa [contains_modify] using hin)⟩

theorem Runtime.setPipestatus_inner (s : Runtime W) (statuses : List Int) :
    InnerOnly s.state (s.setPipestatus statuses).state := by
  have hfold : ∀ (es : List (Int × Nat)) (st : ShellState), st.ownsArray "PIPESTATUS" →
      InnerOnly st (es.foldl (fun st e =>
        st.setArrayElement "PIPESTATUS" (toString e.2) (toString e.1)) st) := by
    intro es
    induction es with
    | nil => exact fun st _ => .refl st
    | cons e es ih =>
      intro st hst
      have hset := st.setArrayElement_owns "PIPESTATUS" (toString e.2) (toString e.1) hst
      exact hset.1.trans (ih _ hset.2)
  have hinit := s.state.initIndexedArray_owns "PIPESTATUS"
  exact hinit.1.trans (hfold _ _ hinit.2)

/-! ## 2. Changes that raise no error -/

/-- A scope that keeps the error variables, or loses some of them, stays quiet. -/
theorem quietScope_of_get {sc sc' : Scope}
    (hget : ∀ name ∈ errorVars, IndexMap.get sc' name = IndexMap.get sc name ∨
      IndexMap.get sc' name = none) (hquiet : quietScope sc = true) : quietScope sc' = true := by
  unfold quietScope at hquiet ⊢
  rw [List.all_eq_true] at hquiet ⊢
  intro name hname
  rcases hget name hname with heq | hnone
  · rw [heq]
    exact hquiet name hname
  · simp [hnone]

theorem quietScope_insert (hname : name ∉ errorVars) (sc : Scope) (v : ShellVar)
    (hquiet : quietScope sc = true) : quietScope (IndexMap.insert sc name v) = true := by
  apply quietScope_of_get _ hquiet
  intro other hother
  have hne : name ≠ other := fun h => hname (h ▸ hother)
  exact .inl (by simp [get_insert, hne])

theorem quietScope_modify (hname : name ∉ errorVars) (sc : Scope)
    (f : ShellVar → ShellVar) (hquiet : quietScope sc = true) :
    quietScope (IndexMap.modify sc name f) = true := by
  apply quietScope_of_get _ hquiet
  intro other hother
  have hne : name ≠ other := fun h => hname (h ▸ hother)
  exact .inl (by simp [get_modify, hne])

theorem quietScope_remove (sc : Scope) (name : String) (hquiet : quietScope sc = true) :
    quietScope (IndexMap.remove sc name) = true := by
  apply quietScope_of_get _ hquiet
  intro other hother
  rw [get_remove]
  split
  · exact .inr rfl
  · exact .inl rfl

namespace ShellState

/-- The second state is quiet when the first is. -/
def StaysQuiet (st st' : ShellState) : Prop := st.quiet = true → st'.quiet = true

theorem quiet_iff (st : ShellState) : st.quiet = true ↔
    quietScope st.env.inner = true ∧ ∀ sc ∈ st.env.outer, quietScope sc = true := by
  simp [ShellState.quiet]

theorem quiet_setEntry (hname : name ∉ errorVars) (st : ShellState)
    (v : ShellVar) : StaysQuiet st (st.setEntry name v) := by
  intro hquiet
  rw [quiet_iff] at hquiet ⊢
  exact ⟨quietScope_insert hname _ v hquiet.1, hquiet.2⟩

theorem quiet_modifyScopes (hname : name ∉ errorVars)
    (f : ShellVar → ShellVar) (scs : List Scope) (hquiet : ∀ sc ∈ scs, quietScope sc = true) :
    ∀ sc ∈ ShellEnv.modifyScopes name f scs, quietScope sc = true := by
  induction scs with
  | nil => simp [ShellEnv.modifyScopes]
  | cons sc scs ih =>
    have hrest : ∀ sc ∈ scs, quietScope sc = true := fun sc hsc => hquiet sc (.tail _ hsc)
    unfold ShellEnv.modifyScopes
    split
    · rintro sc' (_ | ⟨_, hsc'⟩)
      · exact quietScope_modify hname sc f (hquiet sc (.head _))
      · exact hrest sc' hsc'
    · rintro sc' (_ | ⟨_, hsc'⟩)
      · exact hquiet sc (.head _)
      · exact ih hrest sc' hsc'

theorem quiet_updateEntry (hname : name ∉ errorVars) (st : ShellState)
    (f : ShellVar → ShellVar) : StaysQuiet st (st.updateEntry name f) := by
  intro hquiet
  rw [quiet_iff] at hquiet
  rw [quiet_iff]
  unfold ShellState.updateEntry ShellEnv.getMut
  split
  · exact ⟨quietScope_modify hname _ f hquiet.1, hquiet.2⟩
  · exact ⟨hquiet.1, quiet_modifyScopes hname f _ hquiet.2⟩

theorem quiet_remove (st : ShellState) (name : String) :
    StaysQuiet st { st with env := st.env.remove name } := by
  intro hquiet
  rw [quiet_iff] at hquiet ⊢
  exact ⟨quietScope_remove _ name hquiet.1, hquiet.2⟩

theorem quiet_unsetVar (st : ShellState) (name : String) :
    StaysQuiet st (st.unsetVar name) := by
  unfold ShellState.unsetVar
  split
  · exact fun hquiet => hquiet
  · exact quiet_remove st name

theorem quiet_initIndexedArray (hname : name ∉ errorVars) (st : ShellState) :
    StaysQuiet st (st.initIndexedArray name) := by
  unfold ShellState.initIndexedArray ShellState.initArray
  dsimp only
  split
  · exact fun hquiet => hquiet
  · exact quiet_setEntry hname st _

theorem quiet_setArrayElement (hname : name ∉ errorVars) (st : ShellState)
    (index value : String) : StaysQuiet st (st.setArrayElement name index value) := by
  unfold ShellState.setArrayElement
  split
  · split
    · exact fun hquiet => hquiet
    · exact quiet_updateEntry hname st _
  · exact quiet_setEntry hname st _

theorem quiet_foldl {α : Type} {f : ShellState → α → ShellState}
    (hf : ∀ st a, StaysQuiet st (f st a)) (as : List α) (st : ShellState) :
    StaysQuiet st (as.foldl f st) := by
  induction as generalizing st with
  | nil => exact fun hquiet => hquiet
  | cons a as ih => exact fun hquiet => ih _ (hf st a hquiet)

end ShellState

theorem Runtime.setPipestatus_quiet (s : Runtime W) (statuses : List Int) :
    s.state.StaysQuiet (s.setPipestatus statuses).state := by
  have hname : "PIPESTATUS" ∉ errorVars := by decide
  have hfold := ShellState.quiet_foldl
    (f := fun st (e : Int × Nat) =>
      st.setArrayElement "PIPESTATUS" (toString e.2) (toString e.1))
    (fun st e => ShellState.quiet_setArrayElement hname st (toString e.2) (toString e.1))
    statuses.zipIdx (s.state.initIndexedArray "PIPESTATUS")
  intro hquiet
  simp only [Runtime.setPipestatus]
  exact hfold (ShellState.quiet_initIndexedArray hname s.state hquiet)

/-! ## 3. Updates and scopes -/

/-- The single updates. -/
inductive Update (h : Host W P) : Runtime W → Runtime W → Prop where
  /-- `$?`, `$_` and `$LINENO`. -/
  | marks (s) (status : Int) (arg : String) (line : Nat) :
      Update h s { s with state := { s.state with
        lastStatus := status, lastArgument := arg, lineno := line } }
  /-- The innermost scope of the variables, where this raises no error. -/
  | inner (s) (sc : Scope) :
      s.state.StaysQuiet { s.state with env := { s.state.env with inner := sc } } →
      Update h s { s with state := { s.state with env := { s.state.env with inner := sc } } }
  /-- The end of the assignments before a command. -/
  | restored (s) (saves : List (String × Option ShellVar)) (argv : List String) :
      Update h s (Interp.restorePrefixAssignments saves argv s)
  /-- The writes of a call or an expansion. -/
  | ops (s) (ops : List StateOp) (st : ShellState) : s.state.applyAll ops = some st →
      Update h s { (s.noteWrites ops) with state := st }
  | tables (s) (functions : Map String Command) (aliases : Map String String)
      (subst : Option Int) :
      Update h s { s with
        functions := functions, aliases := aliases, lastSubstStatus := subst }
  | world (s) (w : W) : Update h s { s with world := w }
  /-- The pending jumps and the stack of saved locals. -/
  | control (s) (depth : Nat) (cont : Bool) (ret exit : Option Int)
      (locals : List (String × Option String)) :
      Update h s { s with exec := { s.exec with
        breakDepth := depth, loopContinue := cont, returnRequested := ret,
        exitRequested := exit, localSaveStack := locals } }
  | write (s) (stdout : Bool) (data : List Char) : Update h s (s.write h stdout data)
  | writeRouted (s) (stdout : Bool) (data : List Char) :
      Update h s (s.writeRouted h stdout data)
  /-- The visible buffers are emptied. -/
  | drain (s) : Update h s (Interp.drainBuffers s).2
  /-- A step of the budget, and the event it pays for, if any. -/
  | charge (s t) : s.checkResourceLimits = (false, t) → Update h s t
  | dispatch (s t) (argv : List String) : s.checkResourceLimits = (false, t) →
      Update h s (t.record (.dispatch argv))
  | loopVar (s t) (name value : String) : s.checkResourceLimits = (false, t) →
      Update h s (t.record (.loopVar name value))
  | iteration (s t) : s.checkResourceLimits = (false, t) → Update h s (t.record .iteration)
  | exhausted (s t) : s.checkResourceLimits = (true, t) → Update h s t
  /-- The same for an instruction of the VM. -/
  | vmStep (s vm) : s.vm.beginStep = (true, vm) → Update h s { s with vm := vm }
  | vmAssign (s vm) (name : String) : s.vm.beginStep = (true, vm) →
      Update h s ({ s with vm := vm }.record (.assign name))
  | vmStop (s vm) : s.vm.beginStep = (false, vm) → Update h s { s with vm := vm }
  /-- Events without a step of the budget: the single native stage of a pipeline, a builtin
      of the VM (whose step is paid before its words are expanded), an assignment, a turn of
      `select`. -/
  | unpaid (s) (argv : List String) : Update h s (s.record (.dispatch argv))
  | assign (s) (name : String) : Update h s (s.record (.assign name))
  | selectTurn (s) : Update h s (s.record .iteration)
  | builtinLocal (s) (names : List String) : Update h s (s.record (.builtinLocal names))
  | syncPipe (s) (used : Nat) : Update h s (s.syncPipeBudget used)
  | enterRecursion (s) :
      Update h s { s with vm := { s.vm with
        budget := (s.vm.budget.enterRecursion s.vm.limits.recursionLimit).2 } }
  | exitRecursion (s) :
      Update h s { s with vm := { s.vm with budget := s.vm.budget.exitRecursion } }
  | recursionStop (s) (reason : ExhaustionReason) : Update h s (s.markRecursionExhaustion reason)

/-- The two states differ in the accounting only: the budget and the buffers of the VM,
    the captures, the stop flags and the world behind the streams. -/
def Accounting (s t : Runtime W) : Prop :=
  ∃ (w : W) (vm : Vm) (captures : List OutputCapture) (exhausted : Bool)
    (reason : Option StopReason),
    t = { s with
      world := w
      vm := vm
      exec := { s.exec with
        outputCaptures := captures, resourceExhausted := exhausted, stopReason := reason } }

namespace Accounting

variable {h : Host W P} {s t u : Runtime W}

theorem trans (h₁ : Accounting s t) (h₂ : Accounting t u) : Accounting s u := by
  rcases h₁ with ⟨_, _, _, _, _, rfl⟩
  rcases h₂ with ⟨w, vm, captures, exhausted, reason, rfl⟩
  exact ⟨w, vm, captures, exhausted, reason, rfl⟩

theorem vm (s : Runtime W) (vm : Vm) : Accounting s { s with vm := vm } :=
  ⟨s.world, vm, s.exec.outputCaptures, s.exec.resourceExhausted, s.exec.stopReason, rfl⟩

theorem routeOutput (s : Runtime W) (stdout : Bool) (data : List Char) :
    Accounting s (s.routeOutput h stdout data).2 := by
  unfold Runtime.routeOutput
  split
  · next w _ =>
    exact ⟨w, s.vm, s.exec.outputCaptures, s.exec.resourceExhausted, s.exec.stopReason, rfl⟩
  · next w _ =>
    dsimp only
    split
    · next cs _ => exact ⟨w, s.vm, cs, s.exec.resourceExhausted, s.exec.stopReason, rfl⟩
    · exact ⟨w, _, s.exec.outputCaptures, s.exec.resourceExhausted, s.exec.stopReason, rfl⟩

theorem accountOutput (s : Runtime W) (bytes : Nat) : Accounting s (s.accountOutput bytes) := by
  unfold Runtime.accountOutput
  dsimp only
  split
  · exact ⟨s.world, _, s.exec.outputCaptures, true, s.exec.stopReason, rfl⟩
  · exact vm s _

theorem accountRouted (s : Runtime W) (bytes : Nat) : Accounting s (s.accountRouted bytes) := by
  unfold Runtime.accountRouted
  dsimp only
  split
  · exact ⟨s.world, _, s.exec.outputCaptures, true, _, rfl⟩
  · exact ⟨s.world, _, s.exec.outputCaptures, s.exec.resourceExhausted, none, rfl⟩

theorem write (s : Runtime W) (stdout : Bool) (data : List Char) :
    Accounting s (s.write h stdout data) := by
  unfold Runtime.write
  dsimp only
  split
  · exact (routeOutput s stdout data).trans (accountOutput _ _)
  · exact routeOutput s stdout data

theorem writeRouted (s : Runtime W) (stdout : Bool) (data : List Char) :
    Accounting s (s.writeRouted h stdout data) := by
  unfold Runtime.writeRouted
  dsimp only
  split
  · exact (routeOutput s stdout data).trans (accountRouted _ _)
  · exact routeOutput s stdout data

theorem checkResourceLimits (s : Runtime W) : Accounting s s.checkResourceLimits.2 := by
  unfold Runtime.checkResourceLimits
  split
  · exact vm s s.vm
  · dsimp only
    split
    · exact vm s _
    · exact ⟨s.world, _, s.exec.outputCaptures, true, _, rfl⟩

theorem syncPipeBudget (s : Runtime W) (used : Nat) : Accounting s (s.syncPipeBudget used) := by
  unfold Runtime.syncPipeBudget
  split
  · exact vm s s.vm
  · dsimp only
    split
    · exact vm s _
    · exact ⟨s.world, _, s.exec.outputCaptures, true, _, rfl⟩

end Accounting

/-- What an update is, when only the kind of its accounting matters. -/
inductive Change : Runtime W → Runtime W → Prop where
  | marks (s) (status : Int) (arg : String) (line : Nat) :
      Change s { s with state := { s.state with
        lastStatus := status, lastArgument := arg, lineno := line } }
  | inner (s) (sc : Scope) (raised : Nat) :
      Change s { s with
        state := { s.state with env := { s.state.env with inner := sc } }
        trace := { s.trace with raised := raised } }
  | ops (s) (ops : List StateOp) (st : ShellState) : s.state.applyAll ops = some st →
      Change s { (s.noteWrites ops) with state := st }
  | tables (s) (functions : Map String Command) (aliases : Map String String)
      (subst : Option Int) :
      Change s { s with
        functions := functions, aliases := aliases, lastSubstStatus := subst }
  | control (s) (depth : Nat) (cont : Bool) (ret exit : Option Int)
      (locals : List (String × Option String)) :
      Change s { s with exec := { s.exec with
        breakDepth := depth, loopContinue := cont, returnRequested := ret,
        exitRequested := exit, localSaveStack := locals } }
  | accounting (s t) : Accounting s t → Change s t
  | event (s t) (e : Event) : Accounting s t → Change s (t.record e)
  | recursionStop (s) (reason : ExhaustionReason) : Change s (s.markRecursionExhaustion reason)

theorem Interp.restorePrefixAssignments_inner (saves : List (String × Option ShellVar))
    (argv : List String) (s : Runtime W) :
    ∃ (sc : Scope) (raised : Nat), Interp.restorePrefixAssignments saves argv s = { s with
      state := { s.state with env := { s.state.env with inner := sc } }
      trace := { s.trace with raised := raised } } := by
  have hinner : InnerOnly s.state (Interp.restorePrefixAssignments saves argv s).state := by
    apply InnerOnly.foldl
    intro st e
    split
    · exact .setEntry _ _ _
    · exact .unsetVar _ _
  rcases hinner with ⟨sc, hsc⟩
  refine ⟨sc, (Interp.restorePrefixAssignments saves argv s).trace.raised, ?_⟩
  rw [← hsc]
  rfl

theorem Update.change {h : Host W P} {s t : Runtime W} (hu : Update h s t) : Change s t := by
  have hpaid : ∀ {b : Bool} {t}, s.checkResourceLimits = (b, t) → Accounting s t := by
    intro b t hcheck
    have hacc := Accounting.checkResourceLimits s
    rw [hcheck] at hacc
    exact hacc
  cases hu with
  | marks status arg line => exact .marks s status arg line
  | inner sc _ => exact .inner s sc s.trace.raised
  | restored saves argv =>
    rcases Interp.restorePrefixAssignments_inner saves argv s with ⟨sc, raised, heq⟩
    rw [heq]
    exact .inner s sc raised
  | ops ops st hst => exact .ops s ops st hst
  | tables functions aliases subst => exact .tables s functions aliases subst
  | world w =>
    exact .accounting s _ ⟨w, s.vm, s.exec.outputCaptures, s.exec.resourceExhausted,
      s.exec.stopReason, rfl⟩
  | control depth cont ret exit locals => exact .control s depth cont ret exit locals
  | write stdout data => exact .accounting s _ (.write s stdout data)
  | writeRouted stdout data => exact .accounting s _ (.writeRouted s stdout data)
  | drain | enterRecursion | exitRecursion => exact .accounting s _ (.vm s _)
  | charge _ hcheck => exact .accounting s _ (hpaid hcheck)
  | dispatch t argv hcheck | loopVar t name value hcheck | iteration t hcheck =>
    exact .event s t _ (hpaid hcheck)
  | exhausted _ hcheck => exact .accounting s _ (hpaid hcheck)
  | vmStep vm _ => exact .accounting s _ (.vm s vm)
  | vmAssign vm name _ => exact .event s _ _ (.vm s vm)
  | vmStop vm _ => exact .accounting s _ (.vm s vm)
  | unpaid argv | assign name | selectTurn | builtinLocal names => exact .event s s _ (.vm s s.vm)
  | syncPipe used => exact .accounting s _ (.syncPipeBudget s used)
  | recursionStop reason => exact .recursionStop s reason

/-- The scopes, each with what leaves it. -/
inductive Opens (h : Host W P) :
    Runtime W → Runtime W → (Runtime W → Runtime W) → Prop where
  | condition (s) : Opens h s s.enterCondition (Runtime.leaveCondition s)
  | trap (s) : Opens h s s.enterTrap Runtime.leaveTrap
  | nested (s) : Opens h s s.enterNested Runtime.leaveNested
  | source (s) (path : String) : Opens h s (Interp.pushSource path s) Interp.popSource
  /-- The frame of a function, and its body inside the frame. -/
  | frame (s) (name : String) (args : List String) :
      Opens h s { s with state := { s.state with
        positional := args, funcStack := name :: s.state.funcStack } } (Interp.leaveFunction s)
  | body (s) : Opens h s s.enterNested (Interp.leaveBody s)
  /-- The arguments of a script. -/
  | arguments (s) (name : Option String) (args : List String) :
      Opens h s { s with state := { s.state with positional := args, scriptName := name } }
        (Interp.restoreArguments s)
  | isolated (s) (enter : W → W) (newProcess : Bool) :
      Opens h s (Interp.enterIsolated enter newProcess s) (Interp.leaveIsolated h s)
  | shebang (s) (path : String) :
      Opens h s (Interp.resetSetOptionsForNewShell (Interp.pushSource path s)).enterNested
        (Interp.leaveShebang s)
  /-- The exit request of the parent is set aside for a subshell, the variables of the
      subshell get a scope of their own. -/
  | subshell (s) : Opens h s (s.requestExit none) (fun t => t.requestExit s.exec.exitRequested)
  | newScope (s) :
      Opens h s { s with state := { s.state with env := s.state.env.pushScope } }
        (Interp.leaveSubshell s)
  | capture (s) (stdout stderr : Bool) :
      Opens h s (s.pushCapture stdout stderr) (fun t => t.popCapture.2)
  /-- An expansion and the check of the pending errors. -/
  | checked (s) : Opens h s s.enterChecked (Runtime.leaveChecked s)

/-- The runs of updates and scopes. -/
abbrev Reach (h : Host W P) : Runtime W → Runtime W → Prop := Runs (Update h) (Opens h)

/-- The same, stopped inside scopes. -/
abbrev Halt (h : Host W P) : Runtime W → Runtime W → Prop := Stops (Update h) (Opens h)

/-- A computation goes by updates and scopes; `π` reads the state off its result. -/
abbrev Goes {α : Type} (h : Host W P) (π : α → Runtime W) (s : Runtime W) (x : Run W α) : Prop :=
  Sat (Reach h) (Halt h) π s x

variable {h : Host W P} {s t : Runtime W} {α β : Type} {π : α → Runtime W} {ρ : β → Runtime W}

theorem Goes.bind {x : Run W α} {f : α → Run W β} (hx : Goes h π s x)
    (hf : ∀ a, Goes h ρ (π a) (f a)) : Goes h ρ s (x >>= f) :=
  Sat.bind runs_chained hx hf

/-- The rest of a computation inside a scope, up to `leave`. -/
abbrev Leaves (h : Host W P) (leave : Runtime W → Runtime W) (π : α → Runtime W) (s : Runtime W)
    (x : Run W α) : Prop :=
  Sat (Leaving (Update h) (Opens h) leave) (Halt h) π s x

theorem Leaves.bind {x : Run W α} {f : α → Run W β}
    (hx : Goes h π s x) (hf : ∀ a, Leaves h leave ρ (π a) (f a)) : Leaves h leave ρ s (x >>= f) :=
  Sat.andThen Leaving.after .after hx hf

theorem Leaves.after {x : Run W α} (hst : Reach h s t)
    (hx : Leaves h leave π t x) : Leaves h leave π s x := by
  cases x with
  | error u => exact Stops.after hst hx
  | ok a => exact Leaving.after hst hx

theorem Leaves.done {a : α} (hst : Reach h s t)
    (ha : π a = leave t) : Leaves h leave π s (.ok a) := ⟨t, hst, ha⟩

theorem Goes.scopeThen {x : Run W α} {f : α → Run W β} {s' : Runtime W} (hs : Opens h s s' leave)
    (hx : Goes h π s' x)
    (hf : ∀ a, Goes h ρ (leave (π a)) (f a)) : Goes h ρ s (x >>= f) :=
  Sat.scopeThen .trans hs hx hf

theorem Leaves.scopeThen {leave' leave : Runtime W → Runtime W} {x : Run W α} {f : α → Run W β}
    {s' : Runtime W} (hs : Opens h s s' leave) (hx : Goes h π s' x)
    (hf : ∀ a, Leaves h leave' ρ (leave (π a)) (f a)) : Leaves h leave' ρ s (x >>= f) :=
  Sat.scopeThen Leaving.after hs hx hf

theorem Goes.after {x : Run W α} (hst : Reach h s t) (hx : Goes h π t x) : Goes h π s x :=
  Sat.after runs_chained hst hx

/-! ## 4. The primitive operations -/

theorem reach_setStatus (code : Int) : Reach h s (s.setStatus code) :=
  .update (.marks s code s.state.lastArgument s.state.lineno)

theorem reach_setLastArgument (arg : String) : Reach h s (s.setLastArgument arg) :=
  .update (.marks s s.state.lastStatus arg s.state.lineno)

theorem reach_requestExit (code : Option Int) : Reach h s (s.requestExit code) :=
  .update (.control s s.exec.breakDepth s.exec.loopContinue s.exec.returnRequested code
    s.exec.localSaveStack)

theorem reach_world (w : W) : Reach h s { s with world := w } := .update (.world s w)

theorem reach_write (stdout : Bool) (data : List Char) : Reach h s (s.write h stdout data) :=
  .update (.write s stdout data)

theorem reach_writeStderr (msg : String) : Reach h s (s.writeStderr h msg) :=
  reach_write false msg.toList

theorem reach_inner {st : ShellState} (hst : InnerOnly s.state st)
    (hquiet : s.state.StaysQuiet st) : Reach h s { s with state := st } := by
  rcases hst with ⟨sc, rfl⟩
  exact .update (.inner s sc hquiet)

theorem reach_unsetVar (name : String) :
    Reach h s { s with state := s.state.unsetVar name } :=
  reach_inner (.unsetVar _ _) (s.state.quiet_unsetVar name)

theorem reach_setPipestatus (statuses : List Int) : Reach h s (s.setPipestatus statuses) :=
  reach_inner (s.setPipestatus_inner statuses) (s.setPipestatus_quiet statuses)

theorem reach_foldl {γ : Type} (f : Runtime W → γ → Runtime W) (hf : ∀ s a, Reach h s (f s a))
    (as : List γ) (s : Runtime W) : Reach h s (as.foldl f s) := by
  induction as generalizing s with
  | nil => exact .refl s
  | cons a as ih => exact .trans (hf s a) (ih _)

theorem reach_mergeSubEvents (events : Drained) : Reach h s (Interp.mergeSubEvents h s events) :=
  reach_foldl _ (fun _ e => reach_write e.1 e.2) events s

theorem reach_charge (s : Runtime W) : Reach h s s.checkResourceLimits.2 := by
  cases hb : s.checkResourceLimits.1 with
  | true => exact .update (.exhausted s _ (Prod.ext hb rfl))
  | false => exact .update (.charge s _ (Prod.ext hb rfl))

theorem reach_takeError (var : String) : Reach h s (s.takeError var).2 := by
  unfold Runtime.takeError ShellState.takePending
  cases s.state.env.get var with
  | none => exact .refl s
  | some v =>
    dsimp only
    split
    · exact .refl s
    · exact .update (.inner s _ (s.state.quiet_remove var))

section

variable {report : Runtime W → String → Runtime W} (hreport : ∀ s msg, Reach h s (report s msg))

include hreport

theorem reach_nounsetError (s : Runtime W) : Reach h s (s.nounsetError report).2 := by
  have htake := reach_takeError (h := h) (s := s) "_NOUNSET_ERROR"
  unfold Runtime.nounsetError
  split
  · next heq => simpa [heq] using htake
  · next heq =>
    rw [heq] at htake
    exact htake.trans ((hreport _ _).trans ((reach_setStatus _).trans (reach_requestExit _)))

theorem reach_arithError (s : Runtime W) : Reach h s (s.arithError report).2 := by
  have htake := reach_takeError (h := h) (s := s) "_ARITH_ERROR"
  unfold Runtime.arithError
  split
  · next heq => simpa [heq] using htake
  · next heq =>
    rw [heq] at htake
    exact htake.trans ((hreport _ _).trans (reach_setStatus _))

theorem reach_expansionError (s : Runtime W) : Reach h s (s.expansionError report).2 := by
  have htake := reach_takeError (h := h) (s := s) "_SHELL_ERROR"
  unfold Runtime.expansionError
  split
  · next heq => simpa [heq] using htake
  · next heq =>
    rw [heq] at htake
    apply htake.trans
    split
    · exact (hreport _ _).trans ((reach_setStatus _).trans (reach_requestExit _))
    · exact (hreport _ _).trans (reach_setStatus _)

theorem reach_pendingErrors (s : Runtime W) : Reach h s (s.pendingErrors report).2 := by
  have hnounset := reach_nounsetError hreport s
  unfold Runtime.pendingErrors
  split
  · next heq => simpa [heq] using hnounset
  · next s₁ heq =>
    rw [heq] at hnounset
    have harith := reach_arithError hreport s₁
    apply hnounset.trans
    split
    · next heq₁ => simpa [heq₁] using harith
    · next s₂ heq₁ =>
      rw [heq₁] at harith
      exact harith.trans (reach_expansionError hreport s₂)

end

theorem reach_checkErrors (s : Runtime W) : Reach h s (s.checkErrors h).2 :=
  reach_pendingErrors (fun _ msg => reach_writeStderr msg) s

theorem reach_writeVisibleStderr (msg : String) : Reach h s (s.writeVisibleStderr h msg) :=
  .update (.writeRouted s false msg.toList)

theorem reach_consumeErrors (s : Runtime W) : Reach h s (s.consumeErrors h).2 :=
  reach_pendingErrors (fun _ msg => reach_writeVisibleStderr msg) s

theorem goes_applyOps (ops : List StateOp) : Goes h id s (s.applyOps ops) := by
  unfold Runtime.applyOps
  split
  · exact .here s
  · next st hst => exact .update (.ops s ops st hst)

theorem goes_setVar (name value : String) : Goes h id s (s.setVar name value) := goes_applyOps _

theorem goes_applyEffect (routed : Bool) (e : Effect W) : Goes h id s (s.applyEffect h routed e) := by
  unfold Runtime.applyEffect
  split
  · exact .here s
  · next st hst =>
    have hops : Reach h s { (s.noteWrites e.ops) with state := st, world := e.world } :=
      .trans (.update (.ops s e.ops st hst)) (reach_world e.world)
    have hwrites := reach_foldl (h := h)
      (fun s w => if routed then s.writeRouted h w.1 w.2 else s.write h w.1 w.2)
      (fun s w => by
        cases routed with
        | true => exact .update (.writeRouted s w.1 w.2)
        | false => exact .update (.write s w.1 w.2))
      e.writes { (s.noteWrites e.ops) with state := st, world := e.world }
    apply (hops.trans hwrites).trans
    cases e.exit with
    | some code => exact reach_requestExit (some code)
    | none => exact .refl _

end Wasmsh

import Wasmsh.Library.Programs
import Wasmsh.BareHost
import Wasmsh.Substitution

/-!
# Lowered lists on the VM

`Vm::run_with_executor` of `wasmsh-vm/src/lib.rs` for an arbitrary executor, and what a list
that `lower_vm_subset_and_or` accepts means without its program: its pipelines from left to
right, the next one after `&&` if the last executed pipeline succeeded and after `||` if it
failed.

The loop charges a step for each instruction before it is executed and stops when the budget
or the cancellation token says so.  The meaning of a list charges a step for each call, for
each operator and for its end, so that a run and the meaning agree also where they stop.
-/

namespace Wasmsh

open Hir Interp

/-! ## 1. The loop -/

/-- `StepResult`. -/
inductive StepResult where
  | done (status : Int)
  | yield
  | cancelled
  | outputLimitExceeded
  deriving DecidableEq, Repr

/-- The error of `begin_step`, where it returns one. -/
def Vm.stopResult (vm : Vm) : StepResult :=
  if vm.cancelled then .cancelled
  else if vm.outputLimitHit then .outputLimitExceeded
  else .yield

/-- The VM, its shell state, and whatever the executor keeps for itself. -/
structure Machine (X : Type) where
  vm : Vm
  state : ShellState
  exec : X

/-- `VmExecutor`: both methods may change the whole machine. -/
structure VmExecutor (X : Type) where
  assign : String → Option Word → Machine X → Machine X
  executeBuiltin : String → List Word → List Redirection → Machine X → Int × Machine X

/-- A call of one of the two methods. -/
inductive VmCall where
  | assign (name : String) (value : Option Word)
  | builtin (name : String) (argv : List Word) (redirections : List Redirection)

variable {X : Type}

def Machine.setStatus (m : Machine X) (status : Int) : Machine X :=
  { m with state := { m.state with lastStatus := status } }

/-- A call and what the loop does with its result. -/
def VmExecutor.call (E : VmExecutor X) : VmCall → Machine X → Machine X
  | .assign name value, m => E.assign name value m
  | .builtin name argv redirections, m =>
    let r := E.executeBuiltin name argv redirections m
    r.2.setStatus r.1

/-- A finished run: its result, the instructions it executed, the calls it made, and the
    machine it leaves. -/
structure VmRun (X : Type) where
  result : StepResult
  pcs : List Nat
  calls : List VmCall
  after : Machine X

def VmRun.executed (pc : Nat) (calls : List VmCall) (r : VmRun X) : VmRun X :=
  { r with pcs := pc :: r.pcs, calls := calls ++ r.calls }

/-- `Vm::run_with_executor` from `pc` on, for at most `fuel` instructions; `none` when they
    do not suffice. -/
def runFrom (E : VmExecutor X) (code : List Ir) : Nat → Nat → Machine X → Option (VmRun X)
  | fuel, pc, m =>
    match code[pc]? with
    | none => some ⟨.done m.state.lastStatus, [], [], m⟩
    | some i =>
      let step := m.vm.beginStep
      if !step.1 then some ⟨m.vm.stopResult, [], [], { m with vm := step.2 }⟩
      else
        let m := { m with vm := step.2 }
        match fuel with
        | 0 => none
        | fuel + 1 =>
          match i with
          | .assign name value =>
            (runFrom E code fuel (pc + 1) (E.call (.assign name value) m)).map
              (·.executed pc [.assign name value])
          | .executeBuiltin name argv redirs =>
            (runFrom E code fuel (pc + 1) (E.call (.builtin name argv redirs) m)).map
              (·.executed pc [.builtin name argv redirs])
          | .jumpIfFailure target =>
            if m.state.lastStatus ≠ 0 then
              (runFrom E code fuel target m).map (·.executed pc [])
            else (runFrom E code fuel (pc + 1) m).map (·.executed pc [])
          | .jumpIfSuccess target =>
            if m.state.lastStatus = 0 then
              (runFrom E code fuel target m).map (·.executed pc [])
            else (runFrom E code fuel (pc + 1) m).map (·.executed pc [])
          | .returnLastStatus => some ⟨.done m.state.lastStatus, [pc], [], m⟩
          | .ret status => some ⟨.done status, [pc], [], m.setStatus status⟩
          | .nop => (runFrom E code fuel (pc + 1) m).map (·.executed pc [])

/-! ## 2. What a list means -/

/-- How far an evaluation came: the stop it met, if it met one, the calls it made, and the
    machine it leaves. -/
structure Evaluation (X : Type) where
  stop : Option StepResult
  calls : List VmCall
  after : Machine X

/-- What follows, unless the evaluation stopped. -/
def Evaluation.andThen (e : Evaluation X) (k : Machine X → Evaluation X) : Evaluation X :=
  match e.stop with
  | some _ => e
  | none => { k e.after with calls := e.calls ++ (k e.after).calls }

/-- The stop, or the status at the end. -/
def Evaluation.result (e : Evaluation X) : StepResult :=
  e.stop.getD (.done e.after.state.lastStatus)

/-- One step of the budget. -/
def charge (m : Machine X) : Evaluation X :=
  ⟨if m.vm.beginStep.1 then none else some m.vm.stopResult, [], { m with vm := m.vm.beginStep.2 }⟩

/-- Calls in order. -/
def evalCalls (E : VmExecutor X) : List VmCall → Machine X → Evaluation X
  | [], m => ⟨none, [], m⟩
  | c :: cs, m => (charge m).andThen fun m =>
    Evaluation.andThen ⟨none, [c], E.call c m⟩ (evalCalls E cs)

/-- What a command asks an executor to do. -/
def commandCalls : Command → List VmCall
  | .assign as _ => as.map fun a => .assign a.name a.value
  | .exec e => [.builtin ((e.argv.head?.bind Ir.literalWordText).getD "") e.argv e.redirections]
  | _ => []

def pipelineCalls (p : Pipeline) : List VmCall := p.commands.flatMap commandCalls

/-- Whether the pipeline after an operator is executed. -/
def Hir.AndOrOp.runsAfter : AndOrOp → Int → Prop
  | .and, status => status = 0
  | .or, status => status ≠ 0

instance (op : AndOrOp) (status : Int) : Decidable (op.runsAfter status) := by
  cases op <;> unfold AndOrOp.runsAfter <;> infer_instance

/-- The operators and pipelines after the first. -/
def evalRest (E : VmExecutor X) : List (AndOrOp × Pipeline) → Machine X → Evaluation X
  | [], m => ⟨none, [], m⟩
  | (op, p) :: rest, m => (charge m).andThen fun m =>
    if op.runsAfter m.state.lastStatus then
      (evalCalls E (pipelineCalls p) m).andThen (evalRest E rest)
    else evalRest E rest m

/-- The list from left to right, and its end. -/
def evalAndOr (E : VmExecutor X) (l : AndOr) (m : Machine X) : Evaluation X :=
  ((evalCalls E (pipelineCalls l.first) m).andThen (evalRest E l.rest)).andThen charge

/-! ## 3. What lowering produces -/

namespace VmCall

/-- The instruction of a call. -/
def instruction : VmCall → Ir
  | assign name value => .assign name value
  | builtin name argv redirections => .executeBuiltin name argv redirections

end VmCall

/-- The commands that instructions can express: assignments without redirections, and a
    simple command without prefix assignments whose name is literal. -/
inductive Hir.Command.Expressible : Command → Prop where
  | assign (as : List Assignment) : Expressible (.assign as [])
  | exec {e : Exec} {w : Word} {name : String} (henv : e.env = [])
      (hhead : e.argv.head? = some w) (hname : Ir.literalWordText w = some name) :
      Expressible (.exec e)

/-- A pipeline without a modifier: one stage, neither negated nor timed. -/
structure Hir.Pipeline.Plain (p : Pipeline) : Prop where
  timed : p.timed = false
  timePosix : p.timePosix = false
  negated : p.negated = false
  command : ∃ c, p.commands = [c] ∧ c.Expressible

theorem lowerSupportedCommand_spec {c : Command} {code : List Ir}
    (h : Ir.lowerSupportedCommand c = some code) :
    c.Expressible ∧ code = (commandCalls c).map VmCall.instruction := by
  cases c with
  | assign as redirs =>
    cases redirs with
    | nil =>
      rw [Ir.lowerSupportedCommand, Option.some.injEq] at h
      subst h
      refine ⟨.assign as, ?_⟩
      rw [commandCalls, List.map_map]
      rfl
    | cons d ds => cases h
  | exec e =>
    rw [Ir.lowerSupportedCommand] at h
    by_cases henv : e.env.isEmpty
    · rw [if_pos henv] at h
      obtain ⟨w, hhead, h⟩ := Option.bind_eq_some_iff.mp h
      obtain ⟨name, hname, h⟩ := Option.bind_eq_some_iff.mp h
      cases h
      refine ⟨.exec (List.isEmpty_iff.mp henv) hhead hname, ?_⟩
      simp [commandCalls, hhead, hname, VmCall.instruction]
    · rw [if_neg henv] at h
      cases h
  | _ => cases h

theorem lowerSupportedPipeline_spec {p : Pipeline} {code : List Ir}
    (h : Ir.lowerSupportedPipeline p = some code) :
    p.negated = false ∧ (∃ c, p.commands = [c] ∧ c.Expressible) ∧
      code = (pipelineCalls p).map VmCall.instruction := by
  unfold Ir.lowerSupportedPipeline at h
  by_cases hneg : p.negated
  · rw [if_pos hneg] at h
    cases h
  · rw [if_neg hneg] at h
    split at h
    case h_1 c hc =>
      obtain ⟨hexpr, hcode⟩ := lowerSupportedCommand_spec h
      refine ⟨by simpa using hneg, ⟨c, hc, hexpr⟩, ?_⟩
      rw [pipelineCalls, hc, List.flatMap_singleton, hcode]
    case h_2 => cases h

/-! ## 4. Runs of a piece of a program -/

/-- From `pc` on the program does what the evaluation does, with enough fuel, and executes
    instructions from `pc` on, each once and in order. -/
structure Runs (E : VmExecutor X) (code : List Ir) (pc : Nat) (m : Machine X)
    (e : Evaluation X) (pcs : List Nat) : Prop where
  eq : ∀ fuel, code.length - pc ≤ fuel →
    runFrom E code fuel pc m = some ⟨e.result, pcs, e.calls, e.after⟩
  increasing : pcs.Pairwise (· < ·)
  inside : ∀ q ∈ pcs, pc ≤ q ∧ q < code.length

def Reaches (E : VmExecutor X) (code : List Ir) (pc : Nat) (m : Machine X)
    (e : Evaluation X) : Prop :=
  ∃ pcs, Runs E code pc m e pcs

variable {E : VmExecutor X} {code : List Ir} {pc : Nat} {m : Machine X}

theorem Evaluation.andThen_assoc (e : Evaluation X) (f k : Machine X → Evaluation X) :
    (e.andThen f).andThen k = e.andThen fun m => (f m).andThen k := by
  obtain ⟨stop, calls, after⟩ := e
  cases stop with
  | some r => rfl
  | none =>
    simp only [Evaluation.andThen]
    cases hstop : (f after).stop with
    | some r => simp [hstop]
    | none => simp

/-- Nothing was called yet. -/
theorem Evaluation.andThen_pure (m : Machine X) (k : Machine X → Evaluation X) :
    Evaluation.andThen ⟨none, [], m⟩ k = k m := rfl

/-- The machine after `begin_step`. -/
def Machine.begun (m : Machine X) : Machine X := { m with vm := m.vm.beginStep.2 }

theorem charge_of_go (hgo : m.vm.beginStep.1 = true) : charge m = ⟨none, [], m.begun⟩ := by
  rw [charge, if_pos hgo]
  rfl

theorem charge_of_stop (hstop : m.vm.beginStep.1 = false) :
    charge m = ⟨some m.vm.stopResult, [], m.begun⟩ := by
  rw [charge, if_neg (by simp [hstop])]
  rfl

theorem runFrom_stop {i : Ir} (hfetch : code[pc]? = some i) (hstop : m.vm.beginStep.1 = false)
    (fuel : Nat) :
    runFrom E code fuel pc m = some ⟨m.vm.stopResult, [], [], m.begun⟩ := by
  rw [runFrom, hfetch]
  simp only [hstop, Bool.not_false, if_true]
  rfl

theorem runFrom_call {c : VmCall} (hfetch : code[pc]? = some c.instruction)
    (hgo : m.vm.beginStep.1 = true) (fuel : Nat) :
    runFrom E code (fuel + 1) pc m =
      (runFrom E code fuel (pc + 1) (E.call c m.begun)).map (·.executed pc [c]) := by
  rw [runFrom, hfetch]
  cases c with
  | assign name value | builtin name argv redirections =>
    simp only [VmCall.instruction, hgo, Bool.not_true, Bool.false_eq_true, if_false]
    rfl

theorem runFrom_jump {op : AndOrOp} {target : Nat} (hfetch : code[pc]? = some (Ir.jump op target))
    (hgo : m.vm.beginStep.1 = true) (fuel : Nat) :
    runFrom E code (fuel + 1) pc m =
      (runFrom E code fuel
        (if op.runsAfter m.state.lastStatus then pc + 1 else target) m.begun).map
          (·.executed pc []) := by
  rw [runFrom, hfetch]
  simp only [hgo, Bool.not_true, Bool.false_eq_true, if_false]
  cases op with
  | and | or =>
    by_cases hok : m.state.lastStatus = 0
    · simp only [Ir.jump, AndOrOp.runsAfter, hok, ne_eq, not_true, if_false, if_true]
      rfl
    · simp only [Ir.jump, AndOrOp.runsAfter, hok, ne_eq, not_false_eq_true, if_false, if_true]
      rfl

theorem runFrom_return (hfetch : code[pc]? = some .returnLastStatus)
    (hgo : m.vm.beginStep.1 = true) (fuel : Nat) :
    runFrom E code (fuel + 1) pc m = some ⟨.done m.state.lastStatus, [pc], [], m.begun⟩ := by
  rw [runFrom, hfetch]
  simp only [hgo, Bool.not_true, Bool.false_eq_true, if_false]
  rfl

theorem lt_length_of_fetch {i : Ir} (hfetch : code[pc]? = some i) : pc < code.length :=
  (List.getElem?_eq_some_iff.mp hfetch).1

/-- An instruction that goes on at a later one. -/
theorem Reaches.step {e : Evaluation X} {m' : Machine X} {next : Nat} {calls : List VmCall}
    (hlt : pc < code.length) (hnext : pc < next)
    (hrun : ∀ fuel, runFrom E code (fuel + 1) pc m =
      (runFrom E code fuel next m').map (·.executed pc calls))
    (h : Reaches E code next m' e) : Reaches E code pc m { e with calls := calls ++ e.calls } := by
  obtain ⟨pcs, heq, hincreasing, hinside⟩ := h
  refine ⟨pc :: pcs, ?_, ?_, ?_⟩
  · intro fuel hfuel
    obtain ⟨fuel, rfl⟩ : ∃ n, fuel = n + 1 := ⟨fuel - 1, by omega⟩
    rw [hrun, heq fuel (by omega)]
    rfl
  · refine List.pairwise_cons.mpr ⟨?_, hincreasing⟩
    intro q hq
    exact Nat.lt_of_lt_of_le hnext (hinside q hq).1
  · intro q hq
    rcases List.mem_cons.mp hq with rfl | hq
    · exact ⟨Nat.le_refl q, hlt⟩
    · have := hinside q hq
      omega

/-- The step that an instruction is charged: what the instruction does has to be looked at
    only where the budget allows it. -/
theorem Reaches.charge {i : Ir} {k : Machine X → Evaluation X} (hfetch : code[pc]? = some i)
    (h : m.vm.beginStep.1 = true → Reaches E code pc m (k m.begun)) :
    Reaches E code pc m ((Wasmsh.charge m).andThen k) := by
  cases hgo : m.vm.beginStep.1 with
  | true =>
    rw [charge_of_go hgo, Evaluation.andThen_pure]
    exact h hgo
  | false =>
    rw [charge_of_stop hgo]
    refine ⟨[], ?_, List.Pairwise.nil, ?_⟩
    · intro fuel _
      exact runFrom_stop hfetch hgo fuel
    · intro q hq
      cases hq

/-- The instructions of calls make these calls. -/
theorem reaches_calls {cs : List VmCall} {k : Machine X → Evaluation X}
    (hcode : CodeAt code pc (cs.map VmCall.instruction))
    (hk : ∀ m, Reaches E code (pc + cs.length) m (k m)) :
    Reaches E code pc m ((evalCalls E cs m).andThen k) := by
  induction cs generalizing pc m with
  | nil => exact hk m
  | cons c cs ih =>
    rw [List.map_cons] at hcode
    rw [evalCalls, Evaluation.andThen_assoc]
    refine Reaches.charge hcode.fetch fun hgo => ?_
    have hrest : Reaches E code (pc + 1) (E.call c m.begun)
        ((evalCalls E cs (E.call c m.begun)).andThen k) := by
      refine ih hcode.tail fun m => ?_
      have hend := hk m
      rwa [List.length_cons, Nat.add_comm cs.length, ← Nat.add_assoc] at hend
    rw [Evaluation.andThen_assoc]
    exact Reaches.step (lt_length_of_fetch hcode.fetch) (Nat.lt_succ_self pc)
      (runFrom_call hcode.fetch hgo) hrest

/-- The instructions after the first pipeline: where a pipeline is skipped, its jump leads to
    the next operator. -/
theorem reaches_rest {rest : List (AndOrOp × Pipeline)} {tail : List Ir}
    {k : Machine X → Evaluation X} (htail : Ir.lowerRest pc rest = some tail)
    (hcode : CodeAt code pc tail) (hk : ∀ m, Reaches E code (pc + tail.length) m (k m)) :
    Reaches E code pc m ((evalRest E rest m).andThen k) := by
  induction rest generalizing pc m tail with
  | nil =>
    cases htail
    exact hk m
  | cons first rest ih =>
    obtain ⟨op, p⟩ := first
    rw [Ir.lowerRest] at htail
    obtain ⟨piece, hpiece, htail⟩ := Option.bind_eq_some_iff.mp htail
    obtain ⟨later, hlater, htail⟩ := Option.bind_eq_some_iff.mp htail
    cases htail
    obtain ⟨-, -, rfl⟩ := lowerSupportedPipeline_spec hpiece
    rw [List.length_map] at hlater hcode hk
    have hafter : ∀ m, Reaches E code (pc + 1 + (pipelineCalls p).length) m
        ((evalRest E rest m).andThen k) := by
      intro m
      refine ih hlater ?_ fun m => ?_
      · have := hcode.tail.append_right
        rwa [List.length_map] at this
      · have hend := hk m
        simp only [List.length_append, List.length_cons, List.length_map] at hend
        convert hend using 1
        omega
    rw [evalRest, Evaluation.andThen_assoc]
    refine Reaches.charge hcode.fetch fun hgo => ?_
    have hlt := lt_length_of_fetch hcode.fetch
    have hrun := runFrom_jump (E := E) hcode.fetch hgo
    by_cases hruns : op.runsAfter m.state.lastStatus
    · simp only [if_pos hruns] at hrun
      have hruns' : op.runsAfter m.begun.state.lastStatus := hruns
      rw [if_pos hruns', Evaluation.andThen_assoc]
      exact Reaches.step hlt (Nat.lt_succ_self pc) hrun
        (reaches_calls hcode.tail.append_left hafter)
    · simp only [if_neg hruns] at hrun
      have hruns' : ¬ op.runsAfter m.begun.state.lastStatus := hruns
      rw [if_neg hruns']
      exact Reaches.step hlt (by omega) hrun (hafter m.begun)

theorem reaches_return (hfetch : code[pc]? = some .returnLastStatus) :
    Reaches E code pc m (charge m) := by
  have hlt := lt_length_of_fetch hfetch
  cases hgo : m.vm.beginStep.1 with
  | true =>
    rw [charge_of_go hgo]
    refine ⟨[pc], ?_, List.pairwise_singleton _ _, ?_⟩
    · intro fuel hfuel
      obtain ⟨fuel, rfl⟩ : ∃ n, fuel = n + 1 := ⟨fuel - 1, by omega⟩
      exact runFrom_return hfetch hgo fuel
    · intro q hq
      rw [List.mem_singleton.mp hq]
      exact ⟨Nat.le_refl pc, hlt⟩
  | false =>
    rw [charge_of_stop hgo]
    refine ⟨[], ?_, List.Pairwise.nil, ?_⟩
    · intro fuel _
      exact runFrom_stop hfetch hgo fuel
    · intro q hq
      cases hq

/-- The program of a list does what the list means. -/
theorem reaches_lowered {l : AndOr} (h : Ir.lowerSupportedAndOr l = some code) :
    Reaches E code 0 m (evalAndOr E l m) := by
  obtain ⟨first, hfirst, h⟩ := Option.bind_eq_some_iff.mp h
  obtain ⟨tail, htail, h⟩ := Option.bind_eq_some_iff.mp h
  cases h
  obtain ⟨-, -, rfl⟩ := lowerSupportedPipeline_spec hfirst
  rw [List.append_assoc]
  have hwhole := CodeAt.whole
    ((pipelineCalls l.first).map VmCall.instruction ++ (tail ++ [Ir.returnLastStatus])) []
  rw [List.append_nil] at hwhole
  have hrest := hwhole.append_right
  rw [List.length_map, Nat.zero_add] at hrest
  rw [List.length_map] at htail
  rw [evalAndOr, Evaluation.andThen_assoc]
  refine reaches_calls hwhole.append_left fun m => ?_
  rw [Nat.zero_add]
  exact reaches_rest htail hrest.append_left fun m => reaches_return hrest.append_right.fetch

/-! ## 5. Without limits -/

/-- Nothing stops the VM: no limit is set, and there is neither a cancellation nor a recorded
    stop for output. -/
structure Vm.Unlimited (vm : Vm) : Prop where
  stepLimit : vm.limits.stepLimit = 0
  cancelled : vm.cancelled = false
  output : vm.outputLimitHit = false

/-- The calls of the executor set no limit and do not cancel. -/
def VmExecutor.LeavesUnlimited (E : VmExecutor X) : Prop :=
  ∀ c m, m.vm.Unlimited → (E.call c m).vm.Unlimited

theorem Vm.Unlimited.beginStep {vm : Vm} (h : vm.Unlimited) :
    vm.beginStep.1 = true ∧ vm.beginStep.2.Unlimited := by
  obtain ⟨hlimit, hcancelled, houtput⟩ := h
  have hgo : vm.beginStep = (true, { vm with budget.steps := vm.budget.steps + 1 }) := by
    simp [Vm.beginStep, hcancelled, houtput, BudgetTracker.beginStep, hlimit]
  rw [hgo]
  exact ⟨rfl, hlimit, hcancelled, houtput⟩

/-- The evaluation met no stop and left the VM unlimited. -/
def Evaluation.Free (e : Evaluation X) : Prop := e.stop = none ∧ e.after.vm.Unlimited

theorem Evaluation.Free.andThen {e : Evaluation X} {k : Machine X → Evaluation X} (h : e.Free)
    (hk : ∀ m, m.vm.Unlimited → (k m).Free) : (e.andThen k).Free := by
  obtain ⟨stop, calls, after⟩ := e
  obtain ⟨hstop, hvm⟩ := h
  cases hstop
  exact hk after hvm

theorem charge_free (h : m.vm.Unlimited) : (charge m).Free := by
  obtain ⟨hgo, hvm⟩ := h.beginStep
  rw [charge_of_go hgo]
  exact ⟨rfl, hvm⟩

variable (hE : E.LeavesUnlimited)
include hE

theorem evalCalls_free (cs : List VmCall) (h : m.vm.Unlimited) : (evalCalls E cs m).Free := by
  induction cs generalizing m with
  | nil => exact ⟨rfl, h⟩
  | cons c cs ih =>
    refine (charge_free h).andThen fun m hm => ?_
    exact Evaluation.Free.andThen ⟨rfl, hE c m hm⟩ fun m hm => ih hm

theorem evalRest_free (rest : List (AndOrOp × Pipeline)) (h : m.vm.Unlimited) :
    (evalRest E rest m).Free := by
  induction rest generalizing m with
  | nil => exact ⟨rfl, h⟩
  | cons first rest ih =>
    refine (charge_free h).andThen fun m hm => ?_
    split
    · exact (evalCalls_free hE _ hm).andThen fun m hm => ih hm
    · exact ih hm

theorem evalAndOr_free (l : AndOr) (h : m.vm.Unlimited) : (evalAndOr E l m).Free :=
  ((evalCalls_free hE _ h).andThen fun _ hm => evalRest_free hE l.rest hm).andThen
    fun _ hm => charge_free hm

omit hE

/-! ## 6. Accepted lists -/

def andOrPipelines (l : AndOr) : List Pipeline := l.first :: l.rest.map Prod.snd

variable {W P : Type} {h : Host W P} {s : Runtime W} {l : AndOr}

/-- What `lower_vm_subset_and_or` accepts was validated pipeline by pipeline, and lowered. -/
theorem lowerVmSubsetAndOr_spec (haccepted : lowerVmSubsetAndOr h s l = some code) :
    Ir.lowerSupportedAndOr l = some code ∧
      ∀ p ∈ andOrPipelines l, validateVmSubsetPipeline h s p = true := by
  unfold lowerVmSubsetAndOr at haccepted
  split at haccepted
  case isTrue hchecks =>
    rw [Bool.and_eq_true, Bool.and_eq_true, List.all_eq_true] at hchecks
    obtain ⟨⟨-, hfirst⟩, hrest⟩ := hchecks
    refine ⟨haccepted, fun p hp => ?_⟩
    rcases List.mem_cons.mp hp with rfl | hp
    · exact hfirst
    · obtain ⟨member, hmember, rfl⟩ := List.mem_map.mp hp
      exact hrest member hmember
  case isFalse => cases haccepted

theorem validateVmSubsetPipeline_plain {p : Pipeline}
    (hvalid : validateVmSubsetPipeline h s p = true) : p.Plain := by
  unfold validateVmSubsetPipeline at hvalid
  simp only [Bool.and_eq_true, Bool.not_eq_true'] at hvalid
  obtain ⟨⟨⟨htimed, hposix⟩, hnegated⟩, hcommand⟩ := hvalid
  refine ⟨htimed, hposix, hnegated, ?_⟩
  split at hcommand
  case h_1 c hc =>
    refine ⟨c, hc, ?_⟩
    cases c with
    | assign as redirs =>
      simp only [validateVmSubsetCommand, Bool.and_eq_true, List.isEmpty_iff] at hcommand
      obtain ⟨⟨rfl, -⟩, -⟩ := hcommand
      exact .assign as
    | exec e =>
      simp only [validateVmSubsetCommand, Bool.and_eq_true, List.isEmpty_iff] at hcommand
      obtain ⟨⟨⟨⟨⟨⟨henv, -⟩, -⟩, -⟩, -⟩, -⟩, hhead⟩ := hcommand
      split at hhead
      case h_1 => cases hhead
      case h_2 name hname =>
        obtain ⟨w, hw, hname⟩ := Option.bind_eq_some_iff.mp hname
        exact .exec henv hw hname
    | _ => simp [validateVmSubsetCommand] at hcommand
  case h_2 => cases hcommand

/-- The program of an accepted list, for every executor and machine: it makes the calls of the
    list in the same order, executes no instruction twice, and ends with the same result and the
    same machine; without limits it runs to its end, so that its result is the status of the
    last executed pipeline.  No accepted pipeline has a modifier. -/
theorem lowering_preserves_meaning (haccepted : lowerVmSubsetAndOr h s l = some code) :
    (∀ p ∈ andOrPipelines l, p.Plain) ∧
    ∀ (X : Type) (E : VmExecutor X) (m : Machine X),
      (∃ pcs : List Nat, pcs.Pairwise (· < ·) ∧ ∀ fuel, code.length ≤ fuel →
        runFrom E code fuel 0 m = some
          ⟨(evalAndOr E l m).result, pcs, (evalAndOr E l m).calls, (evalAndOr E l m).after⟩) ∧
      (E.LeavesUnlimited → m.vm.Unlimited →
        (evalAndOr E l m).result = .done (evalAndOr E l m).after.state.lastStatus) := by
  obtain ⟨hlowered, hvalid⟩ := lowerVmSubsetAndOr_spec haccepted
  refine ⟨fun p hp => validateVmSubsetPipeline_plain (hvalid p hp), fun X E m => ⟨?_, ?_⟩⟩
  · obtain ⟨pcs, heq, hincreasing, -⟩ := reaches_lowered (E := E) (m := m) hlowered
    exact ⟨pcs, hincreasing, heq⟩
  · intro hE hm
    have hstop : (evalAndOr E l m).stop = none := (evalAndOr_free hE l hm).1
    rw [Evaluation.result, hstop]
    rfl

/-- `A= && B= || C=`. -/
def threeAssignments : AndOr :=
  ⟨.single (.assign [⟨"A", none⟩] []),
    [(.and, .single (.assign [⟨"B", none⟩] [])), (.or, .single (.assign [⟨"C", none⟩] []))]⟩

theorem threeAssignments_preserved :
    (∀ p ∈ andOrPipelines threeAssignments, p.Plain) ∧
    ∀ (X : Type) (E : VmExecutor X) (m : Machine X),
      (∃ pcs : List Nat, pcs.Pairwise (· < ·) ∧ ∀ fuel, 6 ≤ fuel →
        runFrom E [.assign "A" none, .jumpIfFailure 3, .assign "B" none, .jumpIfSuccess 5,
          .assign "C" none, .returnLastStatus] fuel 0 m = some
          ⟨(evalAndOr E threeAssignments m).result, pcs, (evalAndOr E threeAssignments m).calls,
            (evalAndOr E threeAssignments m).after⟩) ∧
      (E.LeavesUnlimited → m.vm.Unlimited →
        (evalAndOr E threeAssignments m).result =
          .done (evalAndOr E threeAssignments m).after.state.lastStatus) :=
  lowering_preserves_meaning
    (rfl : lowerVmSubsetAndOr (Host.ofScript "" []) Runtime.bare threeAssignments = some _)

end Wasmsh

import Wasmsh.Hir
import Wasmsh.State

/-!
# The VM: budget and instructions

`wasmsh-vm/src/lib.rs` and `wasmsh-ir/src/lib.rs`.  The VM owns the budget that every
part of the runtime charges (`begin_step`), and it runs the linear programs to which
lists of plain assignments and builtin calls are lowered.

Counters are natural numbers; the source saturates at the bounds of its integer types.
-/

namespace Wasmsh

/-! ## 1. The budget -/

/-- `BudgetCategory`. -/
inductive BudgetCategory where
  | steps
  | visibleOutputBytes
  | pipeBytes
  | recursionDepth
  deriving DecidableEq, Repr

/-- `ExhaustionReason`. -/
structure ExhaustionReason where
  category : BudgetCategory
  used : Nat
  limit : Nat
  deriving DecidableEq, Repr

/-- `StopReason`. -/
inductive StopReason where
  | exhausted (reason : ExhaustionReason)
  | cancelled
  deriving DecidableEq, Repr

/-- `ExecutionLimits`; a limit of `0` is no limit. -/
structure ExecutionLimits where
  stepLimit : Nat
  outputByteLimit : Nat
  pipeByteLimit : Nat
  recursionLimit : Nat
  deriving DecidableEq, Repr

/-- `BudgetTracker`. -/
structure BudgetTracker where
  steps : Nat
  visibleOutputBytes : Nat
  pipeBytes : Nat
  recursionDepth : Nat
  stopReason : Option StopReason
  deriving DecidableEq, Repr

namespace BudgetTracker

def new : BudgetTracker := ⟨0, 0, 0, 0, none⟩

def exhaust (b : BudgetTracker) (reason : ExhaustionReason) : BudgetTracker :=
  { b with stopReason := some (.exhausted reason) }

/-- `BudgetTracker::begin_step`; `false` is the error. -/
def beginStep (b : BudgetTracker) (limit : Nat) : Bool × BudgetTracker :=
  if 0 < limit ∧ limit ≤ b.steps then (false, b.exhaust ⟨.steps, b.steps, limit⟩)
  else (true, { b with steps := b.steps + 1 })

/-- `track_visible_output`. -/
def trackVisibleOutput (b : BudgetTracker) (bytes limit : Nat) : BudgetTracker :=
  let used := b.visibleOutputBytes + bytes
  let b := { b with visibleOutputBytes := used }
  if 0 < limit ∧ limit < used then b.exhaust ⟨.visibleOutputBytes, used, limit⟩ else b

/-- `set_pipe_bytes`, with the reason it returns as an error. -/
def setPipeBytes (b : BudgetTracker) (bytes limit : Nat) :
    Option ExhaustionReason × BudgetTracker :=
  let b := { b with pipeBytes := bytes }
  if 0 < limit ∧ limit < bytes then
    (some ⟨.pipeBytes, bytes, limit⟩, b.exhaust ⟨.pipeBytes, bytes, limit⟩)
  else (none, b)

/-- `enter_recursion`: the depth is raised also when the limit is passed. -/
def enterRecursion (b : BudgetTracker) (limit : Nat) :
    Option ExhaustionReason × BudgetTracker :=
  let depth := b.recursionDepth + 1
  let b := { b with recursionDepth := depth }
  if 0 < limit ∧ limit < depth then
    (some ⟨.recursionDepth, depth, limit⟩, b.exhaust ⟨.recursionDepth, depth, limit⟩)
  else (none, b)

def exitRecursion (b : BudgetTracker) : BudgetTracker :=
  { b with recursionDepth := b.recursionDepth - 1 }

end BudgetTracker

/-- The accounting part of `Vm` and its output buffers; the shell state is a field of
    the runtime here. -/
structure Vm where
  limits : ExecutionLimits
  budget : BudgetTracker
  outputBytes : Nat
  cancelled : Bool
  stdout : List Char
  stderr : List Char
  deriving DecidableEq, Repr

namespace Vm

/-- `track_output`. -/
def trackOutput (vm : Vm) (bytes : Nat) : Vm :=
  { vm with
    outputBytes := vm.outputBytes + bytes
    budget := vm.budget.trackVisibleOutput bytes vm.limits.outputByteLimit }

/-- `check_output_limit`: whether the last recorded stop was for visible output. -/
def outputLimitHit (vm : Vm) : Bool :=
  match vm.budget.stopReason with
  | some (.exhausted reason) => reason.category == .visibleOutputBytes
  | _ => false

/-- `Vm::begin_step`; `false` is any of its errors. -/
def beginStep (vm : Vm) : Bool × Vm :=
  if vm.cancelled then
    (false, { vm with budget := { vm.budget with stopReason := some .cancelled } })
  else if vm.outputLimitHit then (false, vm)
  else
    let r := vm.budget.beginStep vm.limits.stepLimit
    (r.1, { vm with budget := r.2 })

end Vm

/-! ## 2. Instructions and lowering -/

open Hir

/-- `Ir`. -/
inductive Ir where
  | assign (name : String) (value : Option Word)
  | executeBuiltin (name : String) (argv : List Word) (redirections : List Redirection)
  | jumpIfFailure (target : Nat)
  | jumpIfSuccess (target : Nat)
  | returnLastStatus
  | ret (status : Int)
  | nop
  deriving Repr

namespace Ir

/-- `append_literal_part`: the text of a part without expansions. -/
def literalPartText : WordPart → Option (List Char)
  | .literal t => some t
  | .singleQuoted t => some t
  | .doubleQuoted ps => literalPartsText ps
  | _ => none
where
  /-- The texts of the parts in a row. -/
  literalPartsText : List WordPart → Option (List Char)
    | [] => some []
    | p :: ps => do
      let t ← literalPartText p
      let ts ← literalPartsText ps
      return t ++ ts

/-- `literal_word_text`. -/
def literalWordText (w : Word) : Option String :=
  (literalPartText.literalPartsText w.parts).map String.ofList

/-- `lower_supported_command`; `none` is the lowering error. -/
def lowerSupportedCommand : Command → Option (List Ir)
  | .assign as [] => some (as.map fun a => .assign a.name a.value)
  | .exec e =>
    if e.env.isEmpty then do
      let w ← e.argv.head?
      let name ← literalWordText w
      return [.executeBuiltin name e.argv e.redirections]
    else none
  | _ => none

/-- `lower_supported_pipeline`. -/
def lowerSupportedPipeline (p : Pipeline) : Option (List Ir) :=
  if p.negated then none
  else match p.commands with
    | [c] => lowerSupportedCommand c
    | _ => none

/-- The instruction that skips the next pipeline. -/
def jump : AndOrOp → Nat → Ir
  | .and, target => jumpIfFailure target
  | .or, target => jumpIfSuccess target

/-- The loop of `lower_supported_and_or` over the rest of the list, after `done`
    instructions. -/
def lowerRest : Nat → List (AndOrOp × Pipeline) → Option (List Ir)
  | _, [] => some []
  | done, (op, p) :: rest => do
    let code ← lowerSupportedPipeline p
    let tail ← lowerRest (done + 1 + code.length) rest
    return jump op (done + 1 + code.length) :: code ++ tail

/-- `lower_supported_and_or`. -/
def lowerSupportedAndOr (l : AndOr) : Option (List Ir) := do
  let first ← lowerSupportedPipeline l.first
  let rest ← lowerRest first.length l.rest
  return first ++ rest ++ [.returnLastStatus]

end Ir

end Wasmsh

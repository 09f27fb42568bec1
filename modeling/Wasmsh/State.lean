import Mathlib.Algebra.Group.Int.Defs
import Mathlib.Algebra.Group.Nat.Defs
import Mathlib.Algebra.GroupWithZero.Nat
import Wasmsh.Library.IndexMap

/-!
# Shell state

`wasmsh-state/src/lib.rs`: variables in a stack of scopes, positional parameters, `$?`,
working directory and the other things a shell carries from command to command.
`set_var` writes the innermost scope whatever scope the name was found in, `get_mut`
and the array writers change the entry where it stands.

The scope stack is a list with the innermost scope first.  `$RANDOM`, `$SECONDS` and
`$!` are read through the host and are left out, with the fields behind them; the side
channels for expansion errors are ordinary variables here as in the source.
-/

namespace Wasmsh

open IndexMap

/-! ## 1. Numbers in operands

`str::parse` of the Rust standard library for unsigned and signed integers. -/

/-- The value of a digit string, `none` when it is empty or holds another character. -/
def digitsValue : List Char → Option Nat
  | [] => none
  | cs => if cs.all Char.isDigit then
      some (cs.foldl (fun n c => 10 * n + (c.toNat - '0'.toNat)) 0) else none

/-- `parse::<uN>()`: an optional `+`, then digits, below `2 ^ bits`. -/
def parseUnsigned (bits : Nat) (s : String) : Option Nat :=
  let value := match s.toList with
    | '+' :: cs => digitsValue cs
    | cs => digitsValue cs
  value.filter (· < 2 ^ bits)

/-- `parse::<i32>()`. -/
def parseI32 (s : String) : Option Int :=
  match s.toList with
  | '-' :: cs => ((digitsValue cs).map (fun n => -(n : Int))).filter (-2 ^ 31 ≤ ·)
  | '+' :: cs => ((digitsValue cs).map (fun n => (n : Int))).filter (· < 2 ^ 31)
  | cs => ((digitsValue cs).map (fun n => (n : Int))).filter (· < 2 ^ 31)

/-! ## 2. Variables -/

/-- `VarValue`. -/
inductive VarValue where
  | scalar (s : String)
  | indexedArray (m : Map Nat String)
  | assocArray (m : Map String String)
  deriving DecidableEq, Repr

/-- `VarValue::as_scalar`: the values of an array joined by a space. -/
def VarValue.asScalar : VarValue → String
  | scalar s => s
  | indexedArray m => " ".intercalate (values m)
  | assocArray m => " ".intercalate (values m)

/-- The value of an array after one element is written. -/
def VarValue.setElement (index value : String) : VarValue → VarValue
  | .indexedArray m =>
    match parseUnsigned 64 index with
    | some i => .indexedArray (IndexMap.insert m i value)
    | none => .indexedArray m
  | .assocArray m => .assocArray (IndexMap.insert m index value)
  | .scalar _ =>
    match parseUnsigned 64 index with
    | some i => .indexedArray [(i, value)]
    | none => .indexedArray []

/-- `append_to_indexed_array`, after the largest index. -/
def appendToIndexedArray (m : Map Nat String) (vs : List String) : Map Nat String :=
  let next := match (keys m).max? with
    | some k => k + 1
    | none => 0
  (vs.zipIdx next).foldl (fun m e => IndexMap.insert m e.2 e.1) m

/-- The value of an array after `append_array`; a scalar becomes the first element. -/
def VarValue.appendElements (vs : List String) : VarValue → VarValue
  | .indexedArray m => .indexedArray (appendToIndexedArray m vs)
  | .assocArray m => .assocArray m
  | .scalar t => .indexedArray (appendToIndexedArray (if t = "" then [] else [(0, t)]) vs)

/-- The value of an array after `unset_array_element`. -/
def VarValue.unsetElement (index : String) : VarValue → VarValue
  | .indexedArray m =>
    match parseUnsigned 64 index with
    | some i => .indexedArray (IndexMap.remove m i)
    | none => .indexedArray m
  | .assocArray m => .assocArray (IndexMap.remove m index)
  | .scalar t => .scalar (if index = "0" then "" else t)

/-- The values of an array, a scalar being its own first element. -/
def VarValue.elements : VarValue → List String
  | .scalar t => if t = "" then [] else [t]
  | .indexedArray m => values m
  | .assocArray m => values m

/-- The keys of an array. -/
def VarValue.indices : VarValue → List String
  | .scalar t => if t = "" then [] else ["0"]
  | .indexedArray m => (keys m).map toString
  | .assocArray m => keys m

/-- One element of an array. -/
def VarValue.element (index : String) : VarValue → Option String
  | .scalar t => if index = "0" then some t else none
  | .indexedArray m => (parseUnsigned 64 index).bind (IndexMap.get m)
  | .assocArray m => IndexMap.get m index

/-- `ShellVar`. -/
structure ShellVar where
  value : VarValue
  exported : Bool
  readonly : Bool
  integer : Bool
  nameref : Bool
  deriving DecidableEq, Repr

def ShellVar.ofScalar (s : String) : ShellVar := ⟨.scalar s, false, false, false, false⟩

abbrev Scope := Map String ShellVar

/-- `ShellEnv`: the scopes, innermost first; never empty. -/
structure ShellEnv where
  inner : Scope
  outer : List Scope
  deriving DecidableEq, Repr

namespace ShellEnv

/-- `ShellEnv::get`: the innermost scope that has the name. -/
def get (e : ShellEnv) (name : String) : Option ShellVar :=
  (e.inner :: e.outer).findSome? (IndexMap.get · name)

/-- The scopes with the first entry of `name` changed by `f`. -/
def modifyScopes (name : String) (f : ShellVar → ShellVar) : List Scope → List Scope
  | [] => []
  | sc :: scs =>
    if contains sc name then modify sc name f :: scs else sc :: modifyScopes name f scs

/-- `ShellEnv::get_mut`, with the write it is used for. -/
def getMut (e : ShellEnv) (name : String) (f : ShellVar → ShellVar) : ShellEnv :=
  if contains e.inner name then { e with inner := modify e.inner name f }
  else { e with outer := modifyScopes name f e.outer }

/-- `ShellEnv::set`: the innermost scope. -/
def set (e : ShellEnv) (name : String) (v : ShellVar) : ShellEnv :=
  { e with inner := IndexMap.insert e.inner name v }

def pushScope (e : ShellEnv) : ShellEnv := ⟨[], e.inner :: e.outer⟩

/-- `ShellEnv::pop_scope`: the global scope stays. -/
def popScope (e : ShellEnv) : ShellEnv :=
  match e.outer with
  | [] => e
  | sc :: scs => ⟨sc, scs⟩

/-- `ShellEnv::remove`: from the innermost scope only. -/
def remove (e : ShellEnv) (name : String) : ShellEnv :=
  { e with inner := IndexMap.remove e.inner name }

end ShellEnv

/-! ## 3. The state -/

/-- `ShellState`, less the start time, which the build for wasm does not have. -/
structure ShellState where
  env : ShellEnv
  positional : List String
  lastStatus : Int
  cwd : String
  lineno : Nat
  randomSeed : UInt32
  secondsElapsedMs : Option Nat
  shellPid : Nat
  lastBackgroundPid : Option Nat
  funcStack : List String
  sourceStack : List String
  scriptName : Option String
  lastArgument : String
  dirStack : List String
  umask : Nat
  deriving DecidableEq, Repr

namespace ShellState

/-- `ShellState::new`. -/
def new : ShellState where
  env := ⟨[], []⟩
  positional := []
  lastStatus := 0
  cwd := "/"
  lineno := 0
  randomSeed := 12345
  secondsElapsedMs := none
  shellPid := 1
  lastBackgroundPid := none
  funcStack := []
  sourceStack := []
  scriptName := none
  lastArgument := ""
  dirStack := []
  umask := 0o022

/-- `nameref_target`. -/
def namerefTarget (v : ShellVar) (name : String) : Option String :=
  if v.nameref ∧ v.value.asScalar ≠ "" ∧ v.value.asScalar ≠ name then some v.value.asScalar
  else none

/-- `get_env_var`: one nameref step is followed. -/
def getEnvVar (s : ShellState) (name : String) : Option String := do
  let v ← s.env.get name
  match namerefTarget v name with
  | some target => (s.env.get target).map (·.value.asScalar)
  | none => some v.value.asScalar

/-- `positional_param_index`. -/
def positionalParamIndex (name : String) : Option Nat :=
  ((parseUnsigned 64 name).filter (1 ≤ ·)).map (· - 1)

/-- `option_flags`. -/
def optionFlags (s : ShellState) : String :=
  String.ofList (['a', 'C', 'E', 'e', 'f', 'n', 'p', 'T', 'u', 'v', 'x'].filter fun c =>
    s.getEnvVar ("SHOPT_" ++ c.toString) == some "1")

/-- `get_var`, for the names that are not read through the clock or the random numbers. -/
def getVar (s : ShellState) (name : String) : Option String :=
  if name = "?" then some (toString s.lastStatus)
  else if name = "$$" then some (toString s.shellPid)
  else if name = "!" then some ((s.lastBackgroundPid.map toString).getD "")
  else if name = "#" then some (toString s.positional.length)
  else if name = "-" then some s.optionFlags
  else if name = "0" then some (s.scriptName.getD "wasmsh")
  else if name = "_" then some s.lastArgument
  else if name = "@" ∨ name = "*" then some (" ".intercalate s.positional)
  else if name = "LINENO" then some (toString s.lineno)
  else if name = "FUNCNAME" then some (s.funcStack.headD "")
  else if name = "BASH_SOURCE" then some (s.sourceStack.headD "")
  else match positionalParamIndex name with
    | some i => s.positional[i]?
    | none => s.getEnvVar name

/-- `next_random`. -/
def nextRandom (s : ShellState) : Nat × ShellState :=
  let x := s.randomSeed
  let x := x ^^^ (x <<< 13)
  let x := x ^^^ (x >>> 17)
  let x := x ^^^ (x <<< 5)
  (x.toNat % 32768, { s with randomSeed := x })

/-- `seconds_value`. -/
def secondsValue (s : ShellState) : Nat := s.secondsElapsedMs.getD 0 / 1000

/-- `get_var`, and the state after it. -/
def readVar (s : ShellState) (name : String) : Option String × ShellState :=
  if name = "RANDOM" then (some (toString s.nextRandom.1), s.nextRandom.2)
  else if name = "SECONDS" then (some (toString s.secondsValue), s)
  else (s.getVar name, s)

/-- Reading a variable takes at most a random number. -/
theorem readVar_state (s : ShellState) (name : String) :
    (s.readVar name).2 = if name = "RANDOM" then s.nextRandom.2 else s := by
  unfold readVar
  split
  · rfl
  · split <;> rfl

/-- `is_set_option_enabled` of the runtime, and its other reads of a flag variable. -/
def flag (s : ShellState) (name : String) : Bool := s.getEnvVar name == some "1"

def isVarReadonly (s : ShellState) (name : String) : Bool :=
  match s.env.get name with
  | some v => v.readonly
  | none => false

/-- A new entry in the innermost scope. -/
def setEntry (s : ShellState) (name : String) (v : ShellVar) : ShellState :=
  { s with env := s.env.set name v }

/-- A change of the visible entry, in the scope it stands in. -/
def updateEntry (s : ShellState) (name : String) (f : ShellVar → ShellVar) : ShellState :=
  { s with env := s.env.getMut name f }

/-- The variable `set_var` finally writes.  The source follows a chain of namerefs by
    recursion; a chain longer than the number of variables runs in a cycle and never
    ends. -/
def setVarTarget (s : ShellState) : Nat → String → Option String
  | 0, _ => none
  | fuel + 1, name =>
    match (s.env.get name).bind (namerefTarget · name) with
    | some target => setVarTarget s fuel target
    | none => some name

/-- How many variables there are, shadowed ones included. -/
def varCount (s : ShellState) : Nat :=
  s.env.inner.length + (s.env.outer.map List.length).sum

/-- The end of `set_var`, at the variable the namerefs lead to: a readonly variable is
    left alone, `set -a` exports, the other attributes stay. -/
def writeVar (s : ShellState) (name value : String) : ShellState :=
  let old := s.env.get name
  if (old.map (·.readonly)).getD false then s
  else
    let exported := (old.map (·.exported)).getD false ||
      (!"SHOPT_".toList.isPrefixOf name.toList && !"_".toList.isPrefixOf name.toList &&
        (s.env.get "SHOPT_a").any (fun v => v.value == .scalar "1"))
    s.setEntry name ⟨.scalar value, exported, false, (old.map (·.integer)).getD false,
      (old.map (·.nameref)).getD false⟩

/-- `set_var`; `none` stands for the recursion that does not end. -/
def setVar (s : ShellState) (name value : String) : Option ShellState :=
  (s.setVarTarget (s.varCount + 1) name).map (s.writeVar · value)

/-- `unset_var`; the error for a readonly variable leaves the state as it is. -/
def unsetVar (s : ShellState) (name : String) : ShellState :=
  if s.isVarReadonly name then s else { s with env := s.env.remove name }

/-- `set_readonly`. -/
def setReadonly (s : ShellState) (name value : String) : ShellState :=
  let old := s.env.get name
  s.setEntry name ⟨.scalar value, (old.map (·.exported)).getD false, true,
    (old.map (·.integer)).getD false, (old.map (·.nameref)).getD false⟩

/-! ### Arrays -/

/-- `set_array_element`: in place where the name is visible, in the innermost scope
    where it is not. -/
def setArrayElement (s : ShellState) (name index value : String) : ShellState :=
  match s.env.get name with
  | some v =>
    if v.readonly then s
    else s.updateEntry name fun v => { v with value := v.value.setElement index value }
  | none =>
    s.setEntry name ⟨VarValue.setElement index value (.indexedArray []),
      false, false, false, false⟩

/-- `append_array`. -/
def appendArray (s : ShellState) (name : String) (vs : List String) : ShellState :=
  match s.env.get name with
  | some v =>
    if v.readonly then s
    else s.updateEntry name fun v => { v with value := v.value.appendElements vs }
  | none =>
    s.setEntry name ⟨.indexedArray (appendToIndexedArray [] vs), false, false, false, false⟩

/-- `unset_array_element`. -/
def unsetArrayElement (s : ShellState) (name index : String) : ShellState :=
  match s.env.get name with
  | some v =>
    if v.readonly then s
    else s.updateEntry name fun v => { v with value := v.value.unsetElement index }
  | none => s

/-- `init_indexed_array` and `init_assoc_array`: an empty array in the innermost scope. -/
def initArray (s : ShellState) (name : String) (empty : VarValue) : ShellState :=
  let old := s.env.get name
  if (old.map (·.readonly)).getD false then s
  else s.setEntry name ⟨empty, (old.map (·.exported)).getD false, false, false, false⟩

def initIndexedArray (s : ShellState) (name : String) : ShellState :=
  s.initArray name (.indexedArray [])

def initAssocArray (s : ShellState) (name : String) : ShellState :=
  s.initArray name (.assocArray [])

/-- `get_array_values`. -/
def getArrayValues (s : ShellState) (name : String) : List String :=
  ((s.env.get name).map (·.value.elements)).getD []

/-- `get_array_keys`. -/
def getArrayKeys (s : ShellState) (name : String) : List String :=
  ((s.env.get name).map (·.value.indices)).getD []

/-- `get_array_element`. -/
def getArrayElement (s : ShellState) (name index : String) : Option String :=
  (s.env.get name).bind (·.value.element index)

end ShellState

/-! ## 4. What a command does to the state -/

/-- The ways in which builtins, utilities and the expansion code write the shell
    state.  A call of one of them is modelled by the sequence of its writes. -/
inductive StateOp where
  | setVar (name value : String)
  | setReadonly (name value : String)
  | unsetVar (name : String)
  | setArrayElement (name index value : String)
  | appendArray (name : String) (values : List String)
  | unsetArrayElement (name index : String)
  | initIndexedArray (name : String)
  | initAssocArray (name : String)
  /-- `env.set`: a whole entry, attributes included, into the innermost scope. -/
  | setEntry (name : String) (v : ShellVar)
  /-- `env.get_mut`: attributes of the visible entry, wherever it stands. -/
  | setAttributes (name : String) (exported readonly integer nameref : Bool)
  | setPositional (ps : List String)
  | setStatus (code : Int)
  | setCwd (dir : String)
  | setLastArgument (arg : String)
  | setDirStack (dirs : List String)
  | setUmask (mask : Nat)
  deriving DecidableEq, Repr

/-- One write. -/
def ShellState.apply (s : ShellState) : StateOp → Option ShellState
  | .setVar n v => s.setVar n v
  | .setReadonly n v => some (s.setReadonly n v)
  | .unsetVar n => some (s.unsetVar n)
  | .setArrayElement n i v => some (s.setArrayElement n i v)
  | .appendArray n vs => some (s.appendArray n vs)
  | .unsetArrayElement n i => some (s.unsetArrayElement n i)
  | .initIndexedArray n => some (s.initIndexedArray n)
  | .initAssocArray n => some (s.initAssocArray n)
  | .setEntry n v => some (s.setEntry n v)
  | .setAttributes n x r i f =>
    some (s.updateEntry n fun v =>
      { v with exported := x, readonly := r, integer := i, nameref := f })
  | .setPositional ps => some { s with positional := ps }
  | .setStatus c => some { s with lastStatus := c }
  | .setCwd d => some { s with cwd := d }
  | .setLastArgument a => some { s with lastArgument := a }
  | .setDirStack ds => some { s with dirStack := ds }
  | .setUmask m => some { s with umask := m }

/-- A sequence of writes; `none` when one of them does not return. -/
def ShellState.applyAll (s : ShellState) : List StateOp → Option ShellState
  | [] => some s
  | op :: ops => (s.apply op).bind (·.applyAll ops)

/-! ### Pending errors -/

/-- What the three `set_*_error` functions do with their variable. -/
def ShellState.setPending (s : ShellState) (var message : String) : ShellState :=
  s.setEntry var (.ofScalar message)

/-- What the three `take_*_error` functions do with their variable. -/
def ShellState.takePending (s : ShellState) (var : String) : Option String × ShellState :=
  match s.env.get var with
  | none => (none, s)
  | some v =>
    if v.value.asScalar = "" then (none, s)
    else (some v.value.asScalar, { s with env := s.env.remove var })

def ShellState.setNounsetError (s : ShellState) (name : String) : ShellState :=
  s.setPending "_NOUNSET_ERROR" name

def ShellState.takeNounsetError (s : ShellState) : Option String × ShellState :=
  s.takePending "_NOUNSET_ERROR"

def ShellState.setArithError (s : ShellState) (message : String) : ShellState :=
  s.setPending "_ARITH_ERROR" message

def ShellState.takeArithError (s : ShellState) : Option String × ShellState :=
  s.takePending "_ARITH_ERROR"

/-- A fatal message carries a character of code 1 in front. -/
def ShellState.setShellErrorInner (s : ShellState) (message : String) (fatal : Bool) : ShellState :=
  s.setPending "_SHELL_ERROR"
    (if fatal then String.ofList ('\x01' :: message.toList) else message)

def ShellState.setShellError (s : ShellState) (message : String) : ShellState :=
  s.setShellErrorInner message false

def ShellState.setFatalShellError (s : ShellState) (message : String) : ShellState :=
  s.setShellErrorInner message true

/-- Whether a shell error is fatal, and its message without the mark of that. -/
def shellMessage (message : String) : Bool × String :=
  match message.toList with
  | '\x01' :: rest => (true, String.ofList rest)
  | _ => (false, message)

def ShellState.takeShellError (s : ShellState) : Option (Bool × String) × ShellState :=
  let taken := s.takePending "_SHELL_ERROR"
  (taken.1.map shellMessage, taken.2)

/-- The variables by which an expansion reports a failure. -/
def errorVars : List String := ["_NOUNSET_ERROR", "_ARITH_ERROR", "_SHELL_ERROR"]

/-- No pending error stands in the scope. -/
def quietScope (sc : Scope) : Bool :=
  errorVars.all fun name => (IndexMap.get sc name).all (fun v => v.value.asScalar == "")

/-- No pending error stands in any scope. -/
def ShellState.quiet (s : ShellState) : Bool :=
  quietScope s.env.inner && s.env.outer.all quietScope

/-- The writes leave an error pending where none was. -/
def ShellState.raises (s : ShellState) (ops : List StateOp) : Bool :=
  s.quiet && (s.applyAll ops).any (fun t => !t.quiet)

/-! ### Writes that reach outside a scope -/

/-- How a write reaches outside the innermost scope of the variables: into the scope of
    a level, counted from the outermost scope, or into a field that is not a variable. -/
inductive Leak where
  | scope (level : Nat)
  | positional
  | cwd
  | dirStack
  | umask
  deriving DecidableEq, Repr

/-- The level of the first scope that has the name. -/
def ShellEnv.level (name : String) : List Scope → Nat
  | [] => 0
  | sc :: scs => if contains sc name then scs.length else level name scs

/-- Where a change of the visible entry reaches, if outside. -/
def ShellState.inPlace (s : ShellState) (name : String) : Option Leak :=
  if contains s.env.inner name || (s.env.get name).isNone then none
  else some (.scope (ShellEnv.level name s.env.outer))

/-- Where a write reaches, if outside. -/
def ShellState.leak (s : ShellState) : StateOp → Option Leak
  | .setArrayElement n _ _ => s.inPlace n
  | .appendArray n _ => s.inPlace n
  | .unsetArrayElement n _ => s.inPlace n
  | .setAttributes n _ _ _ _ => s.inPlace n
  | .setPositional _ => some .positional
  | .setCwd _ => some .cwd
  | .setDirStack _ => some .dirStack
  | .setUmask _ => some .umask
  | _ => none

/-- Where the writes of a sequence reach, newest first. -/
def ShellState.leaking (s : ShellState) : List StateOp → List Leak
  | [] => []
  | op :: ops =>
    (match s.apply op with
      | some t => t.leaking ops
      | none => []) ++ (s.leak op).toList

end Wasmsh

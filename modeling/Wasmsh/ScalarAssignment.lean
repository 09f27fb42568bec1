import Wasmsh.Variables
import Wasmsh.BareHost

/-!
# What an assignment stores

Both evaluators expand the value of `name=word` to one string and then look at that
string again: blanks aside, a string in parentheses is taken for an array literal, also
where the parentheses come from quotes or from the value of a parameter.  This module
says exactly when the name holds the expanded string afterwards.
-/

namespace Wasmsh

open Hir IndexMap

variable {W P : Type} {h : Host W P} {r : Recs W P} {s s' : Runtime W}
variable {name : String} {st : ShellState}

/-- A shell identifier. -/
def isIdentifier (name : String) : Bool :=
  match name.toList with
  | [] => false
  | c :: cs => isNameStart c && cs.all isNameByte

theorem isNameByte_of_mem (hname : isIdentifier name = true) {c : Char}
    (hc : c ∈ name.toList) : isNameByte c = true := by
  unfold isIdentifier at hname
  cases hcs : name.toList with
  | nil => rw [hcs] at hc; cases hc
  | cons d cs =>
    rw [hcs] at hname hc
    simp only [Bool.and_eq_true, List.all_eq_true] at hname
    rcases List.mem_cons.mp hc with rfl | hmem
    · exact isNameByte_of_isNameStart hname.1
    · exact hname.2 c hmem

theorem splitAssignmentName_of_identifier (hname : isIdentifier name = true) :
    splitAssignmentName name = (name, false) := by
  have hlast : name.toList.getLast? ≠ some '+' := fun hplus =>
    absurd (isNameByte_of_mem hname (List.mem_of_getLast? hplus)) (by decide)
  simp [splitAssignmentName, hlast]

theorem parseArrayElement_of_identifier (hname : isIdentifier name = true) :
    parseArrayElementAssignment name = none := by
  have hbracket : name.toList.contains '[' = false := by
    cases hb : name.toList.contains '[' with
    | false => rfl
    | true =>
      have hmem : '[' ∈ name.toList := by simpa using hb
      exact absurd (isNameByte_of_mem hname hmem) (by decide)
  unfold parseArrayElementAssignment
  simp only [hbracket, Bool.false_eq_true, false_and, if_false]

/-! ## 1. Array writes -/

/-- The visible entry of the name is that scalar. -/
def ShellState.holds (st : ShellState) (name value : String) : Prop :=
  (st.env.get name).map (·.value) = some (.scalar value)

instance (st : ShellState) (name value : String) : Decidable (st.holds name value) :=
  inferInstanceAs (Decidable (_ = _))

/-- The visible entry of the name is an array. -/
def ShellState.isArray (st : ShellState) (name : String) : Prop :=
  ∃ v, st.env.get name = some v ∧ ∀ text, v.value ≠ .scalar text

theorem ShellState.isArray.not_holds {name value : String}
    (harray : st.isArray name) : ¬ st.holds name value := by
  rcases harray with ⟨v, hget, hv⟩
  intro hholds
  simp only [ShellState.holds, hget, Option.map_some, Option.some.injEq] at hholds
  exact hv value hholds

/-- With an element written to it, no value is a scalar. -/
theorem setElement_ne_scalar (v : VarValue) (index value text : String) :
    v.setElement index value ≠ .scalar text := by
  cases hindex : parseUnsigned 64 index with
  | none => cases v <;> simp [VarValue.setElement, hindex]
  | some i => cases v <;> simp [VarValue.setElement, hindex]

/-- An array with one more element is an array. -/
theorem setArrayElement_isArray (harray : st.isArray name)
    (index value : String) : (st.setArrayElement name index value).isArray name := by
  rcases harray with ⟨v, hget, hv⟩
  unfold ShellState.setArrayElement
  rw [hget]
  dsimp only
  split
  · exact ⟨v, hget, hv⟩
  · exact ⟨_, by rw [ShellState.get_updateEntry, if_pos rfl, hget]; rfl,
      setElement_ne_scalar v.value index value⟩

theorem setArrayElements_isArray (harray : st.isArray name) (es : List (String × String)) :
    ∃ st', st.applyAll (es.map fun e => .setArrayElement name e.1 e.2) = some st' ∧
      st'.isArray name := by
  induction es generalizing st with
  | nil => exact ⟨st, rfl, harray⟩
  | cons e es ih => exact ih (setArrayElement_isArray harray e.1 e.2)

theorem initArray_isArray {empty : VarValue}
    (hempty : ∀ text, empty ≠ .scalar text) (hro : st.isVarReadonly name = false) :
    (st.initArray name empty).isArray name := by
  rw [ShellState.isVarReadonly_eq] at hro
  unfold ShellState.initArray
  simp only [hro, Bool.false_eq_true, if_false]
  exact ⟨_, by rw [ShellState.get_setEntry, if_pos rfl], hempty⟩

/-- The elements of an indexed literal as pairs of index and text. -/
theorem assignIndexedArray_eq (name : String) (elements : List String) :
    assignIndexedArray name elements = .initIndexedArray name ::
      (elements.zipIdx.map fun e => (toString e.2, e.1)).map
        fun e => StateOp.setArrayElement name e.1 e.2 := by
  simp [assignIndexedArray]

/-- A literal makes an array of a name that is not readonly. -/
theorem assignCompoundArray_isArray (hro : st.isVarReadonly name = false) (inner : List Char) :
    ∃ st', st.applyAll (assignCompoundArray name inner false) = some st' ∧ st'.isArray name := by
  unfold assignCompoundArray
  dsimp only
  rw [if_neg Bool.false_ne_true]
  split
  · exact setArrayElements_isArray (initArray_isArray (by simp) hro) _
  · rw [assignIndexedArray_eq]
    exact setArrayElements_isArray (initArray_isArray (by simp) hro) _

/-- A readonly name keeps its entry. -/
theorem setArrayElements_of_readonly
    (hro : st.isVarReadonly name = true) (es : List (String × String)) :
    st.applyAll (es.map fun e => .setArrayElement name e.1 e.2) = some st := by
  induction es with
  | nil => rfl
  | cons e es ih =>
    have hkeep : st.setArrayElement name e.1 e.2 = st := by
      unfold ShellState.setArrayElement
      unfold ShellState.isVarReadonly at hro
      cases hget : st.env.get name with
      | none => simp [hget] at hro
      | some v =>
        simp only [hget] at hro
        simp [hro]
    simpa [ShellState.applyAll, ShellState.apply, hkeep] using ih

theorem assignCompoundArray_of_readonly (hro : st.isVarReadonly name = true) (inner : List Char) :
    st.applyAll (assignCompoundArray name inner false) = some st := by
  have hinit : ∀ empty, st.initArray name empty = st := by
    intro empty
    rw [ShellState.isVarReadonly_eq] at hro
    simp [ShellState.initArray, hro]
  unfold assignCompoundArray
  dsimp only
  rw [if_neg Bool.false_ne_true]
  split
  · simpa [assignAssocArray, ShellState.applyAll, ShellState.apply, ShellState.initAssocArray,
      hinit] using setArrayElements_of_readonly hro (parseAssocPairs inner)
  · rw [assignIndexedArray_eq]
    simp only [ShellState.applyAll, ShellState.apply, ShellState.initIndexedArray, hinit,
      Option.bind_some]
    exact setArrayElements_of_readonly hro _

/-! ## 2. The two evaluators -/

theorem applyOps_eq_of_applyAll {ops : List StateOp} (hst : s.state.applyAll ops = some st) :
    ∃ t, s.applyOps ops = .ok t ∧ t.state = st := by
  simp [Runtime.applyOps, hst]

/-- `set_var` writes the name itself. -/
def ShellState.writesItself (st : ShellState) (name : String) : Prop :=
  st.follows name = false ∧ st.isVarReadonly name = false

/-- `set_var` ends, and leaves the entry of the name as it is. -/
def ShellState.spares (st : ShellState) (name : String) : Prop :=
  (st.target name).isSome ∧ (st.follows name = true ∨ st.isVarReadonly name = true)

/-- After `set_var` the name holds the value exactly when it is written itself, or when
    it is spared and held the value already. -/
theorem ShellState.setVar_stores_iff (st : ShellState) (name value : String) :
    (∃ t, st.setVar name value = some t ∧ t.holds name value) ↔
      st.writesItself name ∨ st.spares name ∧ st.holds name value := by
  cases hfollows : st.follows name with
  | false =>
    rw [ShellState.setVar_of_plain hfollows]
    have htarget := ShellState.target_eq_self hfollows
    cases hro : st.isVarReadonly name with
    | false =>
      rw [ShellState.writeVar_eq hro]
      simp [ShellState.holds, ShellState.written, ShellState.writesItself, hfollows, hro]
    | true =>
      rw [ShellState.writeVar_of_readonly hro]
      simp [ShellState.writesItself, ShellState.spares, hfollows, hro, htarget]
  | true =>
    rw [ShellState.setVar_eq]
    cases htarget : st.target name with
    | none => simp [ShellState.writesItself, ShellState.spares, hfollows, htarget]
    | some name' =>
      -- the chain ends at a variable that leads nowhere, so it is another one
      have hne : name' ≠ name := by
        rintro rfl
        rw [ShellState.not_follows_of_target htarget] at hfollows
        cases hfollows
      have hkeep : (st.writeVar name' value).holds name value ↔ st.holds name value := by
        rw [ShellState.holds, ShellState.get_writeVar_of_ne hne, ShellState.holds]
      simp [ShellState.writesItself, ShellState.spares, hfollows, htarget, hkeep]

theorem setVar_holds_iff (name value : String) :
    (∃ t, s.setVar name value = .ok t ∧ t.state.holds name value) ↔
      s.state.writesItself name ∨ s.state.spares name ∧ s.state.holds name value := by
  rw [← ShellState.setVar_stores_iff]
  have hset : s.setVar name value = s.applyOps [.setVar name value] := rfl
  have hall : s.state.applyAll [.setVar name value] = s.state.setVar name value := by
    simp [ShellState.applyAll, ShellState.apply]
  cases hstate : s.state.setVar name value with
  | none =>
    rw [hset, Runtime.applyOps, hall, hstate]
    simp
  | some st =>
    rcases applyOps_eq_of_applyAll (hall.trans hstate) with ⟨t, ht, rfl⟩
    rw [hset, ht]
    simp

/-- When the write of either evaluator leaves the value under the name: `set_var` does
    and the value has not the shape of an array, or it has that shape, the name is
    readonly and the value was there before. -/
def ShellState.takes (st : ShellState) (name value : String) : Prop :=
  if (compoundBody value).isSome then st.isVarReadonly name = true ∧ st.holds name value
  else st.writesItself name ∨ st.spares name ∧ st.holds name value

instance (st : ShellState) (name : String) : Decidable (st.writesItself name) :=
  inferInstanceAs (Decidable (_ ∧ _))

instance (st : ShellState) (name : String) : Decidable (st.spares name) :=
  inferInstanceAs (Decidable (_ ∧ (_ ∨ _)))

instance (st : ShellState) (name value : String) : Decidable (st.takes name value) :=
  inferInstanceAs (Decidable (if (compoundBody value).isSome
    then st.isVarReadonly name = true ∧ st.holds name value
    else st.writesItself name ∨ st.spares name ∧ st.holds name value))

theorem assignArray_holds_iff (name value : String) (inner : List Char) :
    (∃ t, s.applyOps (assignCompoundArray name inner false) = .ok t ∧ t.state.holds name value) ↔
      s.state.isVarReadonly name = true ∧ s.state.holds name value := by
  cases hro : s.state.isVarReadonly name with
  | true =>
    rcases applyOps_eq_of_applyAll (assignCompoundArray_of_readonly hro inner) with ⟨t, ht, hst⟩
    simp [ht, hst]
  | false =>
    rcases assignCompoundArray_isArray hro inner with ⟨st', hst', harray⟩
    rcases applyOps_eq_of_applyAll hst' with ⟨t, ht, hst⟩
    constructor
    · rintro ⟨t', ht', hholds⟩
      rw [ht] at ht'
      cases ht'
      rw [hst] at hholds
      exact absurd hholds harray.not_holds
    · exact fun hc => absurd hc.1 Bool.false_ne_true

theorem assignValue_holds_iff (hint : Interp.isInteger s name = false) (value : String) :
    (∃ t, Interp.assignValue h name value false s = .ok t ∧ t.state.holds name value) ↔
      s.state.takes name value := by
  unfold Interp.assignValue ShellState.takes
  cases compoundBody value with
  | none =>
    have hscalar : Interp.resolveScalarAssignmentValue h name value false s = .ok (value, s) := by
      simp [Interp.resolveScalarAssignmentValue, hint]
    simp only [hscalar]
    exact setVar_holds_iff name value
  | some inner => exact assignArray_holds_iff name value inner

theorem vmAssignValue_holds_iff (hint : Interp.isInteger s name = false) (value : String) :
    (∃ t, Interp.vmAssignValue h name value s = .ok t ∧ t.state.holds name value) ↔
      s.state.takes name value := by
  unfold Interp.vmAssignValue ShellState.takes
  cases compoundBody value with
  | none =>
    have hscalar : Interp.vmScalarValue h name value s = .ok (value, s) := by
      simp [Interp.vmScalarValue, hint]
    simp only [hscalar]
    exact setVar_holds_iff name value
  | some inner => exact assignArray_holds_iff name value inner

/-- When `execute_assignment` leaves the value under the name; the value is expanded
    between the two states, and a name that is readonly in the first is not written. -/
def assignmentStores (st st' : ShellState) (name value : String) : Prop :=
  if st.isVarReadonly name then st.holds name value else st'.takes name value

/-- When `RuntimeVmExecutor::assign` does: no error of the expansion is pending, and the
    name is not readonly; or the name keeps an entry that has the value already. -/
def vmAssignmentStores (failed : Bool) (st : ShellState) (name value : String) : Prop :=
  if failed then st.holds name value
  else if st.isVarReadonly name then
    (if name = "_SHELL_ERROR" then st.env.below name else st.env.get name).map (·.value) =
      some (.scalar value)
  else st.takes name value

instance (st st' : ShellState) (name value : String) :
    Decidable (assignmentStores st st' name value) :=
  inferInstanceAs (Decidable (if st.isVarReadonly name then st.holds name value
    else st'.takes name value))

instance (failed : Bool) (st : ShellState) (name value : String) :
    Decidable (vmAssignmentStores failed st name value) :=
  inferInstanceAs (Decidable (if failed then st.holds name value
    else if st.isVarReadonly name then
      (if name = "_SHELL_ERROR" then st.env.below name else st.env.get name).map (·.value) =
        some (.scalar value)
    else st.takes name value))

/-- `execute_assignment` of an identifier. -/
theorem executeAssignment_holds_iff (hname : isIdentifier name = true)
    {w : Option Word} {value : String}
    (hexp : Interp.expandAssignmentValue h r w s = .ok (value, s'))
    (hint : Interp.isInteger s' name = false) :
    (∃ t, Interp.executeAssignment h r ⟨name, w⟩ s = .ok t ∧ t.state.holds name value) ↔
      assignmentStores s.state s'.state name value := by
  unfold assignmentStores
  unfold Interp.executeAssignment
  simp only [splitAssignmentName_of_identifier hname, parseArrayElement_of_identifier hname]
  cases hro : s.state.isVarReadonly name with
  | true =>
    -- the message goes to a stream, the variables stay
    simp [ShellState.holds]
  | false =>
    simp only [hexp, Bool.false_eq_true, if_false]
    exact assignValue_holds_iff (s := s'.record (.assign name)) hint value

/-- The variables after the VM has reported a readonly variable: the report passes
    through the variable of pending shell errors. -/
theorem vmReadonlyError_get (name : String) :
    ∃ t, Interp.vmReadonlyError h name s = .ok t ∧ ∀ other, t.state.env.get other =
      if other = "_SHELL_ERROR" then s.state.env.below other else s.state.env.get other := by
  have hmsg : name ++ ": readonly variable" ≠ "" := by
    intro hempty
    have hlen := congrArg String.length hempty
    simp at hlen
  generalize hm : name ++ ": readonly variable" = msg at hmsg
  have hops : s.enterChecked.state.applyAll [.setEntry "_SHELL_ERROR" (.ofScalar msg)] =
      some (s.state.setEntry "_SHELL_ERROR" (.ofScalar msg)) := rfl
  rcases applyOps_eq_of_applyAll hops with ⟨u, hu, hstate⟩
  have htake : u.takeError "_SHELL_ERROR" = (some msg, { u with state := { u.state with
      env := u.state.env.remove "_SHELL_ERROR" } }) := by
    simp [Runtime.takeError, ShellState.takePending, hstate, ShellVar.ofScalar, VarValue.asScalar, hmsg]
  have henv : ∀ other, (u.state.env.remove "_SHELL_ERROR").get other =
      if other = "_SHELL_ERROR" then s.state.env.below other else s.state.env.get other := by
    intro other
    rw [hstate]
    by_cases ho : other = "_SHELL_ERROR"
    · simp [ShellState.setEntry, ShellEnv.set, ShellEnv.remove, ShellEnv.get_eq, get_remove, ho,
        ShellEnv.below]
    · simp [ShellState.setEntry, ShellEnv.set, ShellEnv.remove, ShellEnv.get_eq, get_remove,
        get_insert, ho, Ne.symm ho, ShellEnv.below]
  have hrun : Interp.vmReadonlyError h name s =
      .ok (Runtime.leaveChecked s (u.expansionError (Runtime.writeVisibleStderr h)).2) := by
    unfold Interp.vmReadonlyError
    rw [hm]
    dsimp only
    rw [hu]
    rfl
  refine ⟨_, hrun, fun other => ?_⟩
  show (u.expansionError (Runtime.writeVisibleStderr h)).2.state.env.get other = _
  unfold Runtime.expansionError
  rw [htake]
  dsimp only
  split
  · simpa using henv other
  · simpa using henv other

/-- `RuntimeVmExecutor::assign` of an identifier. -/
theorem vmAssign_holds_iff {w : Option Word} {value : String} {failed : Bool}
    (hexp : Interp.vmExpandValue h w s = .ok (failed, value, s'))
    (hint : Interp.isInteger s' name = false) :
    (∃ t, Interp.vmAssign h name w s = .ok t ∧ t.state.holds name value) ↔
      vmAssignmentStores failed s'.state name value := by
  unfold vmAssignmentStores
  unfold Interp.vmAssign
  rw [hexp]
  have hok : ∀ f : Bool × String × Runtime W → Run W (Runtime W),
      ((.ok (failed, value, s') : Run W (Bool × String × Runtime W)) >>= f) =
        f (failed, value, s') := fun _ => rfl
  rw [hok]
  dsimp only
  cases failed with
  | true => simp [pure, Except.pure]
  | false =>
    cases hro : s'.state.isVarReadonly name with
    | true =>
      rcases vmReadonlyError_get (h := h) (s := s') name with ⟨t, ht, hget⟩
      simp only [Bool.false_eq_true, if_false, if_true]
      rw [ht]
      simp only [bind, Except.bind, pure, Except.pure, Except.ok.injEq, exists_eq_left',
        ShellState.holds, setStatus_env, hget]
    | false =>
      simp only [Bool.false_eq_true, if_false]
      rw [← vmAssignValue_holds_iff (h := h) hint]
      cases hassign : Interp.vmAssignValue h name value s' with
      | error u => simp [bind, Except.bind]
      | ok t => simp [bind, Except.bind, pure, Except.pure, ShellState.holds]

/-- **The name holds the expanded value exactly when the value has not the shape of an
    array and `set_var` writes the name itself**, for every host, state, identifier that
    is not declared integer and word, in both evaluators.  The other cases of the
    condition are those in which the assignment leaves the name alone and it had the value
    before. -/
theorem assignment_stores_iff (h : Host W P) (r : Recs W P) (s : Runtime W) {name : String}
    (hname : isIdentifier name = true) (w : Option Word) {value value' : String}
    {s₁ s₂ : Runtime W} (hexp : Interp.expandAssignmentValue h r w s = .ok (value, s₁))
    (hint : Interp.isInteger s₁ name = false)
    {failed : Bool} (hvm : Interp.vmExpandValue h w s = .ok (failed, value', s₂))
    (hvmint : Interp.isInteger s₂ name = false) :
    ((∃ t, Interp.executeAssignment h r ⟨name, w⟩ s = .ok t ∧ t.state.holds name value) ↔
      assignmentStores s.state s₁.state name value) ∧
    ((∃ t, Interp.vmAssign h name w s = .ok t ∧ t.state.holds name value') ↔
      vmAssignmentStores failed s₂.state name value') :=
  ⟨executeAssignment_holds_iff hname hexp hint, vmAssign_holds_iff hvm hvmint⟩

/-- `x='a b'` is stored by both evaluators. -/
theorem assignment_stores_quoted_blank :
    (∃ t, Interp.executeAssignment (.ofScript "" []) Interp.outOfFuel
      ⟨"x", some ⟨[.singleQuoted "a b".toList]⟩⟩ .bare = .ok t ∧ t.state.holds "x" "a b") ∧
    ∃ t, Interp.vmAssign (.ofScript "" []) "x" (some ⟨[.singleQuoted "a b".toList]⟩) .bare = .ok t ∧
      t.state.holds "x" "a b" := by
  have hiff := @assignment_stores_iff _ _ (.ofScript "" []) Interp.outOfFuel .bare "x"
    (by decide) (some ⟨[.singleQuoted "a b".toList]⟩) "a b" "a b" .bare .bare rfl (by decide)
    false rfl (by decide)
  exact ⟨hiff.1.mpr (by decide), hiff.2.mpr (by decide)⟩

/-- `x='(a b)'` makes an array of two elements in both evaluators. -/
theorem quoted_parentheses_become_array :
    (¬ ∃ t, Interp.executeAssignment (.ofScript "" []) Interp.outOfFuel
      ⟨"x", some ⟨[.singleQuoted "(a b)".toList]⟩⟩ .bare = .ok t ∧ t.state.holds "x" "(a b)") ∧
    ¬ ∃ t, Interp.vmAssign (.ofScript "" []) "x" (some ⟨[.singleQuoted "(a b)".toList]⟩) .bare =
      .ok t ∧ t.state.holds "x" "(a b)" := by
  constructor
  · rintro ⟨t, ht, hholds⟩
    cases ht
    exact absurd hholds (by decide)
  · rintro ⟨t, ht, hholds⟩
    cases ht
    exact absurd hholds (by decide)

end Wasmsh

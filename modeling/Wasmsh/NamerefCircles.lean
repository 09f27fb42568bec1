import Wasmsh.Library.Circles
import Wasmsh.Namerefs

/-!
# Namerefs that run in a circle

`set_var` calls itself once for every nameref on the way to the variable that it writes.
It leaves out a nameref that refers to itself and no longer circle: from a name that leads
into one the calls never end.
-/

namespace Wasmsh.ShellState

open Circles

variable {st : ShellState}

/-- A call of `set_var` for one name makes a call for the other. -/
def Calls (st : ShellState) (name next : String) : Prop := st.hop name = some next

/-- `set_var` with room for so many calls on the stack; no result where they do not
    suffice. -/
def setVarCalls (st : ShellState) : Nat → String → String → Option ShellState
  | 0, _, _ => none
  | calls + 1, name, value =>
    match st.hop name with
    | some next => setVarCalls st calls next value
    | none => some (st.writeVar name value)

/-- `set_var` returns. -/
def SetVarReturns (st : ShellState) (name value : String) : Prop :=
  ∃ calls st', st.setVarCalls calls name value = some st'

/-! ## 1. Calls and chains -/

theorem returns_next_iff {name next : String} (h : st.hop name = some next) (value : String) :
    st.SetVarReturns name value ↔ st.SetVarReturns next value := by
  constructor
  · rintro ⟨calls, st', hcalls⟩
    cases calls with
    | zero => cases hcalls
    | succ calls =>
      rw [setVarCalls, h] at hcalls
      exact ⟨calls, st', hcalls⟩
  · rintro ⟨calls, st', hcalls⟩
    exact ⟨calls + 1, st', by rw [setVarCalls, h]; exact hcalls⟩

theorem returns_iff_ends (name value : String) :
    st.SetVarReturns name value ↔ Ends st.Calls name := by
  constructor
  · rintro ⟨calls, st', hcalls⟩
    induction calls generalizing name with
    | zero => cases hcalls
    | succ calls ih =>
      refine Acc.intro name fun next (hnext : st.hop name = some next) => ih next ?_
      rw [setVarCalls, hnext] at hcalls
      exact hcalls
  · intro hends
    induction hends with
    | intro name _ ih =>
      cases hhop : st.hop name with
      | none => exact ⟨1, st.writeVar name value, by rw [setVarCalls, hhop]⟩
      | some next => exact (returns_next_iff hhop value).mpr (ih next hhop)

/-- Only a variable can call for another one. -/
theorem finite_callers : Set.Finite {name | ∃ next, st.Calls name next} := by
  refine (List.finite_toSet st.entryNames).subset ?_
  rintro name ⟨next, hnext⟩
  exact mem_entryNames (Option.isSome_iff_exists.mpr ⟨next, hnext⟩)

/-! ## 2. When the calls end -/

/-- **When `set_var` returns.**  For every state, name and value: exactly when no name that
    the name leads to through namerefs leads back to itself. -/
theorem setVar_returns_iff (st : ShellState) (name value : String) :
    st.SetVarReturns name value ↔
      ∀ other, st.Reaches name other → ¬ Relation.TransGen st.Calls other other := by
  rw [returns_iff_ends]
  exact ends_iff_circleFree finite_callers

/-- Two namerefs that refer to each other: `declare -n a=b; declare -n b=a`. -/
def withTwoNamerefs : ShellState :=
  { new with env := ⟨[("a", ⟨.scalar "b", false, false, false, true⟩),
      ("b", ⟨.scalar "a", false, false, false, true⟩)], []⟩ }

theorem two_namerefs_never_return : ¬ withTwoNamerefs.SetVarReturns "a" "1" := by
  intro hreturns
  have hab : withTwoNamerefs.Calls "a" "b" := by
    unfold Calls
    decide
  have hba : withTwoNamerefs.Calls "b" "a" := by
    unfold Calls
    decide
  have hcircle : OnCircle withTwoNamerefs.Calls "a" := (Relation.TransGen.single hab).tail hba
  exact hcircle.not_ends ((returns_iff_ends _ _).mp hreturns)

end Wasmsh.ShellState

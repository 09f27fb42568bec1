import Wasmsh.Library.Runs
import Wasmsh.Namerefs

/-!
# Readonly variables

The nine writers of variables in `wasmsh-state/src/lib.rs` against a variable that is
readonly.  Eight of them test the attribute.  `set_readonly` does not and gives the
variable its new value; and `set_var_checked` tests the name it is called with, not the
variable that its namerefs lead to.  `readonly_kept_iff` says that these are the only ways
in which a readonly variable changes or a suppressed write goes unreported.
-/

namespace Wasmsh

open Runs

/-! ## 1. The writers and their results -/

/-- `set_var_checked`. -/
def ShellState.setVarChecked (s : ShellState) (name value : String) :
    Option (ShellState × Except String Unit) :=
  if s.isVarReadonly name then some (s, .error (name ++ ": readonly variable"))
  else (s.setVar name value).map fun t => (t, .ok ())

/-- A call of one of the writers of variables. -/
inductive Mutator where
  | setVar (name value : String)
  | setVarChecked (name value : String)
  | setReadonly (name value : String)
  | unsetVar (name : String)
  | setArrayElement (name index value : String)
  | appendArray (name : String) (values : List String)
  | unsetArrayElement (name index : String)
  | initIndexedArray (name : String)
  | initAssocArray (name : String)
  deriving DecidableEq, Repr

namespace Mutator

/-- The state after a call and its result; `none` when `set_var` does not return. -/
def call (s : ShellState) : Mutator → Option (ShellState × Except String Unit)
  | .setVar n v => (s.setVar n v).map fun t => (t, .ok ())
  | .setVarChecked n v => s.setVarChecked n v
  | .setReadonly n v => some (s.setReadonly n v, .ok ())
  | .unsetVar n => some (s.unsetVar n,
      if s.isVarReadonly n then .error (n ++ ": readonly variable") else .ok ())
  | .setArrayElement n i v => some (s.setArrayElement n i v, .ok ())
  | .appendArray n vs => some (s.appendArray n vs, .ok ())
  | .unsetArrayElement n i => some (s.unsetArrayElement n i, .ok ())
  | .initIndexedArray n => some (s.initIndexedArray n, .ok ())
  | .initAssocArray n => some (s.initAssocArray n, .ok ())

/-- One call in a run; nothing follows a call that does not return. -/
def step (s : Option ShellState) (m : Mutator) : Option ShellState :=
  (s.bind (m.call ·)).map (·.1)

/-- The write that `set_var` is asked for is suppressed. -/
def suppresses (s : ShellState) (name : String) : Bool := (s.target name).any s.isVarReadonly

/-- A suppressed write of `set_var_checked` is reported. -/
def reports (s : ShellState) (m : Mutator) : Prop :=
  ∀ name value, m = .setVarChecked name value → suppresses s name = true →
    ∀ r, m.call s = some r → ∃ e, r.2 = .error e

/-- The call does not go past the tests: `set_readonly` gives `n` the value that it has,
    and `set_var_checked` is not asked through a nameref for a readonly variable. -/
def respects (n : String) (s : ShellState) : Mutator → Prop
  | .setReadonly name value => name = n → (s.env.get n).map (·.value) = some (.scalar value)
  | .setVarChecked name _ => suppresses s name = true → s.isVarReadonly name = true
  | _ => True

/-! ## 2. One call -/

variable {s t : ShellState} {n : String} {v : ShellVar}

theorem isVarReadonly_of_get (hget : s.env.get n = some v) : s.isVarReadonly n = v.readonly := by
  unfold ShellState.isVarReadonly
  rw [hget]

/-- A change in place of another entry, or of none. -/
theorem get_writeVar_of_readonly (hget : s.env.get n = some v) (hro : v.readonly = true)
    (name value : String) : (s.writeVar name value).env.get n = some v := by
  by_cases hn : name = n
  · subst hn
    rw [ShellState.writeVar_of_readonly ((isVarReadonly_of_get hget).trans hro), hget]
  · rw [ShellState.get_writeVar_of_ne hn, hget]

theorem get_setVar (hget : s.env.get n = some v) (hro : v.readonly = true) {name value : String}
    (hset : s.setVar name value = some t) : t.env.get n = some v := by
  rw [ShellState.setVar_eq, Option.map_eq_some_iff] at hset
  rcases hset with ⟨target, -, rfl⟩
  exact get_writeVar_of_readonly hget hro target value

theorem get_initArray (hget : s.env.get n = some v) (hro : v.readonly = true) (name : String)
    (empty : VarValue) : (s.initArray name empty).env.get n = some v := by
  unfold ShellState.initArray
  dsimp only
  by_cases hn : name = n
  · subst hn
    rw [hget, Option.map_some, Option.getD_some, hro, if_pos rfl, hget]
  · split
    · exact hget
    · rw [ShellState.get_setEntry, if_neg hn, hget]

/-- The array writers, with the entry they make for a name that has none. -/
theorem get_arrayWrite (hget : s.env.get n = some v) (hro : v.readonly = true) {name : String}
    {f : ShellVar → ShellVar} {fresh : ShellState}
    (hfresh : name ≠ n → fresh.env.get n = s.env.get n)
    (hwrite : t = match s.env.get name with
      | some old => if old.readonly then s else s.updateEntry name f
      | none => fresh) : t.env.get n = some v := by
  subst hwrite
  by_cases hn : name = n
  · subst hn
    rw [hget]
    dsimp only
    rw [if_pos hro, hget]
  · cases s.env.get name with
    | none => exact (hfresh hn).trans hget
    | some old =>
      dsimp only
      split
      · exact hget
      · rw [ShellState.get_updateEntry, if_neg hn, hget]

theorem setReadonly_value (name value : String) :
    ((s.setReadonly name value).env.get name).map (·.value) = some (.scalar value) := by
  unfold ShellState.setReadonly
  rw [ShellState.get_setEntry, if_pos rfl]
  rfl

/-- A call that respects the tests keeps the whole entry. -/
theorem call_keeps (hget : s.env.get n = some v) (hro : v.readonly = true) {m : Mutator}
    {r : ShellState × Except String Unit} (hcall : m.call s = some r) (hm : m.respects n s) :
    r.1.env.get n = some v := by
  cases m with
  | setVar name value =>
    rcases Option.map_eq_some_iff.mp hcall with ⟨t, hset, rfl⟩
    exact get_setVar hget hro hset
  | setVarChecked name value =>
    simp only [call, ShellState.setVarChecked] at hcall
    split at hcall
    · cases hcall
      exact hget
    · rcases Option.map_eq_some_iff.mp hcall with ⟨t, hset, rfl⟩
      exact get_setVar hget hro hset
  | setReadonly name value =>
    cases hcall
    by_cases hn : name = n
    · -- the attributes stay as they are, and the value is the one that was there
      have hvalue := hm hn
      subst hn
      rw [hget, Option.map_some, Option.some.injEq] at hvalue
      rcases v with ⟨value', exported, readonly, integer, nameref⟩
      cases hro
      cases hvalue
      simp [ShellState.setReadonly, hget]
    · simp only [ShellState.setReadonly, ShellState.get_setEntry, if_neg hn, hget]
  | unsetVar name =>
    cases hcall
    rw [ShellState.get_unsetVar, if_neg, hget]
    rintro ⟨rfl, hnot⟩
    rw [isVarReadonly_of_get hget, hro] at hnot
    cases hnot
  | setArrayElement name index value | appendArray name values =>
    cases hcall
    refine get_arrayWrite hget hro (fun hn => ?_) rfl
    rw [ShellState.get_setEntry, if_neg hn]
  | unsetArrayElement name index =>
    cases hcall
    exact get_arrayWrite hget hro (fun _ => rfl) rfl
  | initIndexedArray name | initAssocArray name =>
    cases hcall
    exact get_initArray hget hro name _

/-- The value is lost exactly to `set_readonly`. -/
theorem value_kept_of_call {m : Mutator} {name value : String} (hm : m = .setReadonly name value)
    {r : ShellState × Except String Unit} (hcall : m.call s = some r)
    (hkept : (r.1.env.get n).map (·.value) = (s.env.get n).map (·.value)) : m.respects n s := by
  subst hm
  cases hcall
  rintro rfl
  rw [← hkept, setReadonly_value]

/-- `set_var_checked` tests the name it is called with. -/
theorem reports_iff (name value : String) :
    (Mutator.setVarChecked name value).reports s ↔
      (suppresses s name = true → s.isVarReadonly name = true) := by
  constructor
  · intro h hsupp
    by_contra hnot
    rw [Bool.not_eq_true] at hnot
    cases htarget : s.target name with
    | none => simp [suppresses, htarget] at hsupp
    | some target =>
      have hcall : (Mutator.setVarChecked name value).call s =
          some (s.writeVar target value, .ok ()) := by
        simp [call, ShellState.setVarChecked, hnot, ShellState.setVar_eq, htarget]
      rcases h name value rfl hsupp _ hcall with ⟨e, he⟩
      cases he
  · intro h name' value' heq hsupp r hcall
    cases heq
    simp only [call, ShellState.setVarChecked, h hsupp, if_true, Option.some.injEq] at hcall
    exact ⟨_, by rw [← hcall]⟩

/-! ## 3. Runs -/

/-- The value and the attribute that a readonly variable should keep. -/
def Keeps (n : String) (v : ShellVar) (t : ShellState) : Prop :=
  (t.env.get n).map (fun w => (w.value, w.readonly)) = some (v.value, true)

theorem step_of_call {m : Mutator} {r : ShellState × Except String Unit}
    (hcall : m.call s = some r) : step (some s) m = some r.1 := by
  simp [step, hcall]

/-- **Readonly variables.**  In a run of the writers that starts with `n` readonly, the value
    of `n` and its attribute stay in every state and every suppressed write of
    `set_var_checked` is reported, exactly when every call respects the tests. -/
theorem readonly_kept_iff (hget : s.env.get n = some v) (hro : v.readonly = true)
    (ms : List Mutator) :
    ((∀ t, some t ∈ states step (some s) ms → Keeps n v t) ∧
        ∀ c ∈ calls step (some s) ms, ∀ t, c.1 = some t → c.2.reports t) ↔
      ∀ c ∈ calls step (some s) ms, ∀ t, c.1 = some t → c.2.respects n t := by
  constructor
  · rintro ⟨hkeeps, hreports⟩ c hc t ht
    rcases c with ⟨before, m⟩
    cases ht
    have hin := mem_states_of_mem_calls hc
    have hbefore := hkeeps t hin.1
    cases m with
    | setReadonly name value =>
      have hcall : (Mutator.setReadonly name value).call t =
        some (t.setReadonly name value, .ok ()) := rfl
      have hafter := hkeeps _ (step_of_call hcall ▸ hin.2)
      refine value_kept_of_call rfl hcall ?_
      have hvalue := congrArg (Option.map Prod.fst) (hafter.trans hbefore.symm)
      simpa only [Option.map_map, Function.comp_def] using hvalue
    | setVarChecked name value => exact (reports_iff name value).mp (hreports _ hc t rfl)
    | _ => trivial
  · intro hrespects
    have hkept : ∀ o ∈ states step (some s) ms, ∀ t, o = some t → t.env.get n = some v := by
      apply states_induct
      · rintro t ht
        cases ht
        exact hget
      · rintro ⟨before, m⟩ hc hbefore t ht
        simp only [step, Option.map_eq_some_iff, Option.bind_eq_some_iff] at ht
        rcases ht with ⟨r, ⟨s', hs', hcall⟩, rfl⟩
        exact call_keeps (hbefore s' hs') hro hcall (hrespects _ hc s' hs')
    refine ⟨fun t ht => ?_, fun c hc t ht => ?_⟩
    · rw [Keeps, hkept _ ht t rfl, Option.map_some, hro]
    · rcases c with ⟨before, m⟩
      intro name value hm
      cases hm
      exact (reports_iff name value).mpr (hrespects _ hc t ht) name value rfl

/-- `X` is readonly, and `R` refers to it. -/
def withReadonly : ShellState :=
  { ShellState.new with env := ⟨[("X", ⟨.scalar "locked", false, true, false, false⟩),
      ("R", ⟨.scalar "X", false, false, false, true⟩)], []⟩ }

theorem readonly_kept_of_writes :
    (∀ t, some t ∈ states step (some withReadonly)
        [.setVar "R" "new", .appendArray "X" ["new"], .unsetVar "X"] →
      Keeps "X" ⟨.scalar "locked", false, true, false, false⟩ t) ∧
    ∀ c ∈ calls step (some withReadonly)
        [.setVar "R" "new", .appendArray "X" ["new"], .unsetVar "X"],
      ∀ t, c.1 = some t → c.2.reports t := by
  refine (readonly_kept_iff (by decide +kernel) rfl _).mpr ?_
  intro c hc t _
  have hm := input_of_mem_calls hc
  simp only [List.mem_cons, List.not_mem_nil, or_false] at hm
  rcases hm with h | h | h <;> rw [h] <;> trivial

/-- `set_readonly` changes a readonly variable, and a write that is suppressed behind a
    nameref is not reported. -/
theorem readonly_not_kept :
    ((withReadonly.setReadonly "X" "new").env.get "X").map (·.value) = some (.scalar "new") ∧
      withReadonly.setVarChecked "R" "new" = some (withReadonly, .ok ()) := by
  decide +kernel

end Mutator

end Wasmsh

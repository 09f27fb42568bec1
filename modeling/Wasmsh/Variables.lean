import Wasmsh.Steps

/-!
# The visible entry of a variable

What each write does to the entry that `ShellEnv::get` finds under a name, and which
names the scopes below the innermost one have: a run can change their entries in place
but neither adds a name to them nor takes one away.
-/

namespace Wasmsh

open Hir IndexMap Bounded

variable {W P : Type} {h : Host W P} {s t : Runtime W} {name : String}

/-! ## 1. Single writes -/

/-- The entry that the scopes below the innermost one have for a name. -/
def ShellEnv.below (e : ShellEnv) (name : String) : Option ShellVar :=
  e.outer.findSome? (IndexMap.get · name)

theorem ShellEnv.get_eq (e : ShellEnv) (name : String) :
    e.get name = (IndexMap.get e.inner name).or (e.below name) := by
  unfold ShellEnv.get ShellEnv.below
  cases hget : IndexMap.get e.inner name with
  | none => simp [hget]
  | some v => simp [hget]

namespace ShellState

variable (st : ShellState)

@[simp] theorem get_setEntry (name : String) (v : ShellVar) (other : String) :
    (st.setEntry name v).env.get other = if name = other then some v else st.env.get other := by
  simp only [setEntry, ShellEnv.set, ShellEnv.get_eq, get_insert]
  split
  · rfl
  · rfl

theorem get_modifyScopes (name : String) (f : ShellVar → ShellVar) (scs : List Scope)
    (other : String) :
    (ShellEnv.modifyScopes name f scs).findSome? (IndexMap.get · other) =
      if name = other then (scs.findSome? (IndexMap.get · name)).map f
      else scs.findSome? (IndexMap.get · other) := by
  induction scs with
  | nil => simp [ShellEnv.modifyScopes]
  | cons sc scs ih =>
    unfold ShellEnv.modifyScopes
    by_cases hin : contains sc name = true
    · rcases Option.isSome_iff_exists.mp hin with ⟨v, hv⟩
      by_cases ho : name = other
      · subst ho
        simp [hin, get_modify, hv]
      · simp only [hin, if_true, List.findSome?_cons, get_modify, ho, if_false]
    · have hnone : IndexMap.get sc name = none := by simpa [contains] using hin
      by_cases ho : name = other
      · subst ho
        simpa [hin, hnone] using ih
      · simp only [hin, Bool.false_eq_true, if_false, List.findSome?_cons, ih, ho]

@[simp] theorem get_updateEntry (name : String) (f : ShellVar → ShellVar) (other : String) :
    (st.updateEntry name f).env.get other =
      if name = other then (st.env.get name).map f else st.env.get other := by
  unfold updateEntry ShellEnv.getMut
  by_cases hin : contains st.env.inner name = true
  · rcases Option.isSome_iff_exists.mp hin with ⟨v, hv⟩
    by_cases ho : name = other
    · subst ho
      simp [ShellEnv.get_eq, ShellEnv.below, hin, get_modify, hv]
    · simp [ShellEnv.get_eq, ShellEnv.below, hin, get_modify, ho]
  · have hnone : IndexMap.get st.env.inner name = none := by simpa [contains] using hin
    by_cases ho : name = other
    · subst ho
      simp [ShellEnv.get_eq, ShellEnv.below, hin, hnone, get_modifyScopes]
    · simp [ShellEnv.get_eq, ShellEnv.below, hin, get_modifyScopes, ho]

theorem get_unsetVar (name other : String) :
    (st.unsetVar name).env.get other =
      if name = other ∧ st.isVarReadonly name = false then st.env.below name
      else st.env.get other := by
  unfold unsetVar
  cases hro : st.isVarReadonly name with
  | true => simp
  | false =>
    by_cases ho : name = other
    · subst ho
      simp [ShellEnv.remove, ShellEnv.get_eq, get_remove, ShellEnv.below]
    · simp [ShellEnv.remove, ShellEnv.get_eq, get_remove, ShellEnv.below, ho]

/-- The name that a write to `name` finally reaches; no result for a cycle. -/
def target (name : String) : Option String := st.setVarTarget (st.varCount + 1) name

/-- A write to the name goes to another variable, the one the name refers to. -/
def follows (name : String) : Bool := ((st.env.get name).bind (namerefTarget · name)).isSome

variable {st}

theorem target_eq_self (hplain : st.follows name = false) :
    st.target name = some name := by
  have hnone : (st.env.get name).bind (namerefTarget · name) = none := by
    simpa [follows] using hplain
  simp [target, setVarTarget, hnone]

/-- A chain of namerefs ends at a variable that leads nowhere else. -/
theorem not_follows_of_setVarTarget {fuel : Nat} {name name' : String}
    (htarget : st.setVarTarget fuel name = some name') : st.follows name' = false := by
  induction fuel generalizing name with
  | zero => cases htarget
  | succ fuel ih =>
    unfold setVarTarget at htarget
    split at htarget
    · exact ih htarget
    · next hnone =>
      cases htarget
      simp [follows, hnone]

theorem not_follows_of_target {name name' : String} (htarget : st.target name = some name') :
    st.follows name' = false :=
  not_follows_of_setVarTarget htarget

/-- The write of `set_var` at the end of the chain. -/
theorem setVar_eq (name value : String) :
    st.setVar name value = (st.target name).map (st.writeVar · value) := rfl

/-- A write to a name that is no nameref writes that name. -/
theorem setVar_of_plain (hplain : st.follows name = false) (value : String) :
    st.setVar name value = some (st.writeVar name value) := by
  rw [setVar_eq, target_eq_self hplain]
  rfl

theorem get_writeVar_of_ne {name other : String} (hne : name ≠ other) (value : String) :
    (st.writeVar name value).env.get other = st.env.get other := by
  unfold writeVar
  dsimp only
  split
  · rfl
  · simp [hne]

theorem isVarReadonly_eq (name : String) :
    st.isVarReadonly name = ((st.env.get name).map (·.readonly)).getD false := by
  unfold isVarReadonly
  cases st.env.get name <;> rfl

/-- `set -a` exports the name when it is written. -/
def autoExports (st : ShellState) (name : String) : Bool :=
  !"SHOPT_".toList.isPrefixOf name.toList && !"_".toList.isPrefixOf name.toList &&
    (st.env.get "SHOPT_a").any (fun v => v.value == .scalar "1")

/-- The entry `set_var` writes under a name that is not readonly. -/
def written (st : ShellState) (name value : String) : ShellVar :=
  let old := st.env.get name
  ⟨.scalar value, (old.map (·.exported)).getD false || st.autoExports name, false,
    (old.map (·.integer)).getD false, (old.map (·.nameref)).getD false⟩

theorem writeVar_eq (hro : st.isVarReadonly name = false) (value : String) :
    st.writeVar name value = st.setEntry name (st.written name value) := by
  rw [isVarReadonly_eq] at hro
  simp [writeVar, hro, written, autoExports]

theorem writeVar_of_readonly (hro : st.isVarReadonly name = true)
    (value : String) : st.writeVar name value = st := by
  rw [isVarReadonly_eq] at hro
  simp [writeVar, hro]

end ShellState

/-- A write to a name that is no nameref, as an update of the runtime. -/
theorem setVar_run (hplain : s.state.follows name = false) (value : String) :
    ∃ raised, s.setVar name value = .ok { s with
      state := s.state.writeVar name value
      trace := { s.trace with raised := raised } } := by
  have hset := ShellState.setVar_of_plain hplain value
  refine ⟨(s.noteWrites [.setVar name value]).trace.raised, ?_⟩
  simp [Runtime.setVar, Runtime.applyOps, Runtime.noteWrites, ShellState.applyAll,
    ShellState.leaking, ShellState.apply, ShellState.leak, hset]

/-! ## 2. Output leaves the variables alone -/

theorem Accounting.state_eq (hacc : Accounting s t) : t.state = s.state := by
  rcases hacc with ⟨_, _, _, _, _, rfl⟩
  rfl

@[simp] theorem write_state (stdout : Bool) (data : List Char) :
    (s.write h stdout data).state = s.state :=
  (Accounting.write s stdout data).state_eq

@[simp] theorem writeStderr_state (msg : String) : (s.writeStderr h msg).state = s.state :=
  write_state _ _

@[simp] theorem writeVisibleStderr_state (msg : String) :
    (s.writeVisibleStderr h msg).state = s.state :=
  (Accounting.writeRouted s false msg.toList).state_eq

@[simp] theorem setStatus_env (code : Int) : (s.setStatus code).state.env = s.state.env := rfl

@[simp] theorem record_state (e : Event) : (s.record e).state = s.state := rfl

@[simp] theorem requestExit_state (code : Option Int) : (s.requestExit code).state = s.state := rfl

/-! ## 3. The names below the innermost scope -/

theorem writeVar_inner (st : ShellState) (name value : String) :
    InnerOnly st (st.writeVar name value) := by
  unfold ShellState.writeVar
  dsimp only
  split
  · exact .refl st
  · exact .setEntry _ _ _

theorem initArray_inner (st : ShellState) (name : String) (empty : VarValue) :
    InnerOnly st (st.initArray name empty) := by
  unfold ShellState.initArray
  dsimp only
  split
  · exact .refl st
  · exact .setEntry _ _ _

theorem unsetVars_inner (names : List String) (st : ShellState) :
    InnerOnly st (Interp.unsetVars names st) :=
  InnerOnly.foldl ShellState.unsetVar InnerOnly.unsetVar names st

theorem setArrayElement_cases (st : ShellState) (name index value : String) :
    InnerOnly st (st.setArrayElement name index value) ∨
      ∃ f, st.setArrayElement name index value = st.updateEntry name f := by
  unfold ShellState.setArrayElement
  split
  · split
    · exact .inl (.refl st)
    · exact .inr ⟨_, rfl⟩
  · exact .inl (.setEntry _ _ _)

theorem appendArray_cases (st : ShellState) (name : String) (values : List String) :
    InnerOnly st (st.appendArray name values) ∨
      ∃ f, st.appendArray name values = st.updateEntry name f := by
  unfold ShellState.appendArray
  split
  · split
    · exact .inl (.refl st)
    · exact .inr ⟨_, rfl⟩
  · exact .inl (.setEntry _ _ _)

theorem unsetArrayElement_cases (st : ShellState) (name index : String) :
    InnerOnly st (st.unsetArrayElement name index) ∨
      ∃ f, st.unsetArrayElement name index = st.updateEntry name f := by
  unfold ShellState.unsetArrayElement
  split
  · split
    · exact .inl (.refl st)
    · exact .inr ⟨_, rfl⟩
  · exact .inl (.refl st)

/-- How a write can change the variables: in the innermost scope, by a change of the
    visible entry in place, or not at all. -/
theorem apply_cases {st st' : ShellState} {op : StateOp} (hop : st.apply op = some st') :
    InnerOnly st st' ∨ (∃ name f, st' = st.updateEntry name f) ∨ st'.env = st.env := by
  cases op with
  | setVar name value =>
    simp only [ShellState.apply, ShellState.setVar, Option.map_eq_some_iff] at hop
    rcases hop with ⟨target, -, rfl⟩
    exact .inl (writeVar_inner st target value)
  | setReadonly name value | setEntry name v => cases hop; exact .inl (.setEntry _ _ _)
  | unsetVar name => cases hop; exact .inl (.unsetVar _ _)
  | setArrayElement name index value =>
    cases hop
    rcases setArrayElement_cases st name index value with h | ⟨f, hf⟩
    · exact .inl h
    · exact .inr (.inl ⟨name, f, hf⟩)
  | appendArray name values =>
    cases hop
    rcases appendArray_cases st name values with h | ⟨f, hf⟩
    · exact .inl h
    · exact .inr (.inl ⟨name, f, hf⟩)
  | unsetArrayElement name index =>
    cases hop
    rcases unsetArrayElement_cases st name index with h | ⟨f, hf⟩
    · exact .inl h
    · exact .inr (.inl ⟨name, f, hf⟩)
  | initIndexedArray name | initAssocArray name => cases hop; exact .inl (initArray_inner st name _)
  | setAttributes name x r i f => cases hop; exact .inr (.inl ⟨name, _, rfl⟩)
  | _ => cases hop; exact .inr (.inr rfl)

/-- The scopes below the innermost one have the same names. -/
def SameNames (st st' : ShellState) : Prop :=
  ∀ name, st'.env.outer.map (contains · name) = st.env.outer.map (contains · name)

namespace SameNames

variable {st st₁ st₂ : ShellState}

theorem of_outer (houter : st₁.env.outer = st.env.outer) : SameNames st st₁ := by
  intro name
  rw [houter]

theorem of_inner (hinner : InnerOnly st st₁) : SameNames st st₁ := by
  rcases hinner with ⟨sc, rfl⟩
  exact of_outer rfl

theorem trans (h₁ : SameNames st st₁) (h₂ : SameNames st₁ st₂) : SameNames st st₂ :=
  fun name => (h₂ name).trans (h₁ name)

/-- A name that is in no scope below stays out of them. -/
theorem below_eq_none (hnames : SameNames st st₁)
    (hbelow : st.env.below name = none) : st₁.env.below name = none := by
  have habsent : ∀ scs : List Scope, scs.findSome? (IndexMap.get · name) = none ↔
      ∀ b ∈ scs.map (contains · name), b = false := by
    intro scs
    simp [List.findSome?_eq_none_iff, contains]
  unfold ShellEnv.below at hbelow ⊢
  rw [habsent] at hbelow ⊢
  rw [hnames name]
  exact hbelow

end SameNames

theorem contains_modifyScopes (name : String) (f : ShellVar → ShellVar) (scs : List Scope)
    (other : String) :
    (ShellEnv.modifyScopes name f scs).map (contains · other) = scs.map (contains · other) := by
  induction scs with
  | nil => rfl
  | cons sc scs ih =>
    unfold ShellEnv.modifyScopes
    split
    · have hsame : contains (modify sc name f) other = contains sc other := by
        unfold contains
        rw [get_modify]
        split
        · next heq => rw [heq, Option.isSome_map]
        · rfl
      simp [hsame]
    · simp [ih]

theorem apply_sameNames {st st' : ShellState} {op : StateOp} (hop : st.apply op = some st') :
    SameNames st st' := by
  rcases apply_cases hop with hinner | ⟨name, f, rfl⟩ | henv
  · exact .of_inner hinner
  · unfold ShellState.updateEntry ShellEnv.getMut
    split
    · exact .of_outer rfl
    · exact fun other => contains_modifyScopes name f st.env.outer other
  · exact .of_outer (by rw [henv])

theorem applyAll_sameNames {st st' : ShellState} {ops : List StateOp}
    (hops : st.applyAll ops = some st') : SameNames st st' := by
  induction ops generalizing st with
  | nil =>
    cases hops
    exact .of_outer rfl
  | cons op ops ih =>
    simp only [ShellState.applyAll, Option.bind_eq_some_iff] at hops
    rcases hops with ⟨st₁, hop, hrest⟩
    exact (apply_sameNames hop).trans (ih hrest)

theorem Change.sameNames (hc : Change s t) : SameNames s.state t.state := by
  cases hc with
  | ops ops st hst => exact applyAll_sameNames hst
  | accounting _ hacc => exact .of_outer (by rw [hacc.state_eq])
  | event u e hacc => exact .of_outer (by rw [record_state, hacc.state_eq])
  | _ => exact .of_outer rfl

theorem popCapture_state (t : Runtime W) : t.popCapture.2.state = t.state := by
  unfold Runtime.popCapture
  split
  · rfl
  · rfl

/-- The options of a script are reset in the innermost scope. -/
theorem enterShebang_sameNames (s : Runtime W) (path : String) :
    SameNames s.state
      (Interp.resetSetOptionsForNewShell (Interp.pushSource path s)).enterNested.state := by
  have hsource : SameNames s.state (Interp.pushSource path s).state := .of_outer rfl
  simp only [Runtime.enterNested, Interp.resetSetOptionsForNewShell]
  exact hsource.trans (.of_inner (unsetVars_inner Interp.newShellOptions _))

/-- A scope keeps the names below; a new scope of variables is dropped again. -/
theorem Opens.sameNames {s' : Runtime W} {leave : Runtime W → Runtime W}
    (ho : Opens h s s' leave) (hrun : SameNames s'.state t.state) :
    SameNames s.state (leave t).state := by
  have hthrough : s'.state.env.outer = s.state.env.outer →
      (leave t).state.env.outer = t.state.env.outer → SameNames s.state (leave t).state :=
    fun henter hleave => ((SameNames.of_outer henter).trans hrun).trans (.of_outer hleave)
  cases ho with
  | isolated enter newProcess => exact .of_outer rfl
  | newScope =>
    intro name
    have hnames := hrun name
    cases houter : t.state.env.outer with
    | nil => simp [houter, ShellEnv.pushScope] at hnames
    | cons sc scs =>
      simp only [houter, ShellEnv.pushScope, List.map_cons, List.cons.injEq] at hnames
      simpa [Interp.leaveSubshell, Runtime.requestExit, ShellEnv.popScope, houter] using hnames.2
  | shebang path =>
    have hleave : SameNames t.state (Interp.leaveShebang s t).state := .of_outer rfl
    exact ((enterShebang_sameNames s path).trans hrun).trans hleave
  | capture stdout stderr => exact hthrough rfl (by rw [popCapture_state])
  | _ => exact hthrough rfl rfl

theorem sameNames_chained :
    Chained (fun s t : Runtime W => SameNames s.state t.state) (fun _ _ => True) where
  refl _ := .of_outer rfl
  trans h₁ h₂ := h₁.trans h₂
  cut _ := trivial
  extend _ _ := trivial

/-- **No run adds a name to the scopes below the innermost one, or takes one away.** -/
theorem Reach.sameNames (hr : Reach h s t) : SameNames s.state t.state :=
  sameNames_chained.of_runs (fun _ _ hu => hu.change.sameNames)
    (fun _ _ _ _ ho hrun => ho.sameNames hrun) hr

end Wasmsh

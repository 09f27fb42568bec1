import Wasmsh.Reachability
import Wasmsh.Variables
import Wasmsh.BareHost

/-!
# Subshell isolation

`( body )` runs in a new innermost scope, which is dropped at its end, with the functions
and aliases of the parent put back.  What else the parent has is safe only as far as no
write of the body reaches it: a variable changed in place in an outer scope, the
positional parameters, the working directory, the directory stack, the umask.  The trace
notes each of these where it happens.  Here: a run that notes none leaves the outer
scopes and those fields as they were, and so a subshell leaves its parent as it was.
-/

namespace Wasmsh

open Hir IndexMap Bounded

variable {W P : Type} {h : Host W P} {s t : Runtime W} {name : String}

/-! ## 1. Writes -/

/-- The `k` outermost scopes. -/
def ShellState.outermost (st : ShellState) (k : Nat) : List Scope :=
  st.env.outer.drop (st.env.outer.length - k)

/-- From `st` to `st'`, with writes that reach outside where `leaks` says: everything
    below the levels reached, and each field not written, is unchanged. -/
structure Contained (leaks : List Leak) (st st' : ShellState) : Prop where
  depth : st'.env.outer.length = st.env.outer.length
  scopes : ∀ k ≤ st.env.outer.length, (∀ l, Leak.scope l ∈ leaks → k ≤ l) →
    st'.outermost k = st.outermost k
  positional : Leak.positional ∉ leaks → st'.positional = st.positional
  cwd : Leak.cwd ∉ leaks → st'.cwd = st.cwd
  dirStack : Leak.dirStack ∉ leaks → st'.dirStack = st.dirStack
  umask : Leak.umask ∉ leaks → st'.umask = st.umask

namespace Contained

variable {leaks leaks₁ leaks₂ : List Leak} {st st₁ st₂ : ShellState}

theorem refl (st : ShellState) : Contained [] st st :=
  ⟨rfl, fun _ _ _ => rfl, fun _ => rfl, fun _ => rfl, fun _ => rfl, fun _ => rfl⟩

theorem trans (h₁ : Contained leaks₁ st st₁) (h₂ : Contained leaks₂ st₁ st₂) :
    Contained (leaks₂ ++ leaks₁) st st₂ where
  depth := h₂.depth.trans h₁.depth
  scopes k hk hl := by
    have hk₁ : k ≤ st₁.env.outer.length := by rw [h₁.depth]; exact hk
    rw [h₂.scopes k hk₁ fun l hmem => hl l (List.mem_append_left _ hmem),
      h₁.scopes k hk fun l hmem => hl l (List.mem_append_right _ hmem)]
  positional hl := by
    rw [h₂.positional fun hmem => hl (List.mem_append_left _ hmem),
      h₁.positional fun hmem => hl (List.mem_append_right _ hmem)]
  cwd hl := by
    rw [h₂.cwd fun hmem => hl (List.mem_append_left _ hmem),
      h₁.cwd fun hmem => hl (List.mem_append_right _ hmem)]
  dirStack hl := by
    rw [h₂.dirStack fun hmem => hl (List.mem_append_left _ hmem),
      h₁.dirStack fun hmem => hl (List.mem_append_right _ hmem)]
  umask hl := by
    rw [h₂.umask fun hmem => hl (List.mem_append_left _ hmem),
      h₁.umask fun hmem => hl (List.mem_append_right _ hmem)]

/-- More leaks promise less. -/
theorem weaken (h₁ : Contained leaks₁ st st₁) (hsub : leaks₁ ⊆ leaks₂) :
    Contained leaks₂ st st₁ where
  depth := h₁.depth
  scopes k hk hl := h₁.scopes k hk fun l hmem => hl l (hsub hmem)
  positional hl := h₁.positional fun hmem => hl (hsub hmem)
  cwd hl := h₁.cwd fun hmem => hl (hsub hmem)
  dirStack hl := h₁.dirStack fun hmem => hl (hsub hmem)
  umask hl := h₁.umask fun hmem => hl (hsub hmem)

/-- The outer scopes and the four fields are the same. -/
theorem of_eq (houter : st₁.env.outer = st.env.outer) (hpos : st₁.positional = st.positional)
    (hcwd : st₁.cwd = st.cwd) (hdirs : st₁.dirStack = st.dirStack)
    (humask : st₁.umask = st.umask) : Contained [] st st₁ :=
  ⟨by rw [houter], fun k _ _ => by unfold ShellState.outermost; rw [houter], fun _ => hpos,
    fun _ => hcwd, fun _ => hdirs, fun _ => humask⟩

theorem of_innerOnly (h₁ : InnerOnly st st₁) : Contained leaks st st₁ := by
  rcases h₁ with ⟨_, rfl⟩
  exact weaken (of_eq rfl rfl rfl rfl rfl) (List.nil_subset _)

end Contained

theorem level_le (name : String) (scs : List Scope) : ShellEnv.level name scs ≤ scs.length := by
  induction scs with
  | nil => exact Nat.le_refl 0
  | cons sc scs ih =>
    unfold ShellEnv.level
    split
    · exact Nat.le_succ _
    · exact Nat.le_succ_of_le ih

/-- A change of an entry in place reaches the level of its scope and nothing below. -/
theorem modifyScopes_outermost (name : String) (f : ShellVar → ShellVar) (scs : List Scope) :
    (ShellEnv.modifyScopes name f scs).length = scs.length ∧
      ∀ k ≤ ShellEnv.level name scs,
        (ShellEnv.modifyScopes name f scs).drop (scs.length - k) = scs.drop (scs.length - k) := by
  induction scs with
  | nil => exact ⟨rfl, fun _ _ => rfl⟩
  | cons sc scs ih =>
    have hlevel := level_le name scs
    by_cases hin : contains sc name = true
    · simp only [ShellEnv.modifyScopes, ShellEnv.level, hin, if_true, List.length_cons]
      refine ⟨trivial, fun k hk => ?_⟩
      have hdrop : scs.length + 1 - k = (scs.length - k) + 1 := by omega
      rw [hdrop, List.drop_succ_cons, List.drop_succ_cons]
    · simp only [ShellEnv.modifyScopes, ShellEnv.level, hin, Bool.false_eq_true, if_false,
        List.length_cons, ih.1]
      refine ⟨trivial, fun k hk => ?_⟩
      have hdrop : scs.length + 1 - k = (scs.length - k) + 1 := by omega
      rw [hdrop, List.drop_succ_cons, List.drop_succ_cons, ih.2 k hk]

/-- A name that no scope has is nowhere to change. -/
theorem modifyScopes_of_absent (name : String) (f : ShellVar → ShellVar) (scs : List Scope)
    (habsent : scs.findSome? (IndexMap.get · name) = none) :
    ShellEnv.modifyScopes name f scs = scs := by
  induction scs with
  | nil => rfl
  | cons sc scs ih =>
    simp only [List.findSome?_cons] at habsent
    cases hget : IndexMap.get sc name with
    | some v => simp [hget] at habsent
    | none =>
      simp only [hget] at habsent
      simp [ShellEnv.modifyScopes, contains, hget, ih habsent]

theorem updateEntry_contained (st : ShellState) (name : String) (f : ShellVar → ShellVar) :
    Contained (st.inPlace name).toList st (st.updateEntry name f) := by
  by_cases hin : contains st.env.inner name = true
  · have hupdate : InnerOnly st (st.updateEntry name f) := by
      simp only [ShellState.updateEntry, ShellEnv.getMut, hin, if_true]
      exact ⟨_, rfl⟩
    exact .of_innerOnly hupdate
  · have hnone : IndexMap.get st.env.inner name = none := by
      simpa [contains] using hin
    have hupdate : st.updateEntry name f = { st with env := { st.env with
        outer := ShellEnv.modifyScopes name f st.env.outer } } := by
      simp [ShellState.updateEntry, ShellEnv.getMut, hin]
    rw [hupdate]
    cases hget : st.env.get name with
    | none =>
      have habsent : st.env.outer.findSome? (IndexMap.get · name) = none := by
        simpa [ShellEnv.get, hnone] using hget
      rw [modifyScopes_of_absent name f _ habsent]
      exact Contained.weaken (.refl st) (List.nil_subset _)
    | some v =>
      have hmod := modifyScopes_outermost name f st.env.outer
      have hleak : st.inPlace name = some (.scope (ShellEnv.level name st.env.outer)) := by
        simp [ShellState.inPlace, hin, hget]
      rw [hleak]
      refine ⟨hmod.1, fun k _ hl => ?_, fun _ => rfl, fun _ => rfl, fun _ => rfl, fun _ => rfl⟩
      unfold ShellState.outermost
      dsimp only
      rw [hmod.1]
      exact hmod.2 k (hl _ (by simp))

/-- The three writers of arrays: in place where the name is visible and not readonly. -/
theorem arrayWrite_contained (st : ShellState) (name : String) (f : ShellVar → ShellVar)
    (fresh : ShellState) (hfresh : InnerOnly st fresh) :
    Contained (st.inPlace name).toList st (match st.env.get name with
      | some v => if v.readonly then st else st.updateEntry name f
      | none => fresh) := by
  split
  · split
    · exact Contained.weaken (.refl st) (List.nil_subset _)
    · exact updateEntry_contained st name f
  · exact .of_innerOnly hfresh

theorem apply_contained {st st' : ShellState} {op : StateOp} (hop : st.apply op = some st') :
    Contained (st.leak op).toList st st' := by
  cases op with
  | setVar name value =>
    simp only [ShellState.apply, ShellState.setVar, Option.map_eq_some_iff] at hop
    rcases hop with ⟨target, -, rfl⟩
    exact .of_innerOnly (writeVar_inner st target value)
  | setReadonly name value | setEntry name v =>
    cases hop
    exact .of_innerOnly (.setEntry _ _ _)
  | unsetVar name =>
    cases hop
    exact .of_innerOnly (.unsetVar _ _)
  | setArrayElement name index value | appendArray name values =>
    cases hop
    exact arrayWrite_contained st name _ _ (.setEntry _ _ _)
  | unsetArrayElement name index =>
    cases hop
    exact arrayWrite_contained st name _ _ (.refl st)
  | initIndexedArray name | initAssocArray name =>
    cases hop
    exact .of_innerOnly (initArray_inner st name _)
  | setAttributes name x r i f =>
    cases hop
    exact updateEntry_contained st name _
  | setPositional ps =>
    cases hop
    exact ⟨rfl, fun _ _ _ => rfl, fun hl => absurd (by simp [ShellState.leak]) hl, fun _ => rfl,
      fun _ => rfl, fun _ => rfl⟩
  | setCwd dir =>
    cases hop
    exact ⟨rfl, fun _ _ _ => rfl, fun _ => rfl, fun hl => absurd (by simp [ShellState.leak]) hl,
      fun _ => rfl, fun _ => rfl⟩
  | setDirStack dirs =>
    cases hop
    exact ⟨rfl, fun _ _ _ => rfl, fun _ => rfl, fun _ => rfl,
      fun hl => absurd (by simp [ShellState.leak]) hl, fun _ => rfl⟩
  | setUmask mask =>
    cases hop
    exact ⟨rfl, fun _ _ _ => rfl, fun _ => rfl, fun _ => rfl, fun _ => rfl,
      fun hl => absurd (by simp [ShellState.leak]) hl⟩
  | setStatus code | setLastArgument arg =>
    cases hop
    exact .of_eq rfl rfl rfl rfl rfl

theorem applyAll_contained {st st' : ShellState} {ops : List StateOp}
    (hops : st.applyAll ops = some st') : Contained (st.leaking ops) st st' := by
  induction ops generalizing st st' with
  | nil =>
    cases hops
    exact .refl st
  | cons op ops ih =>
    simp only [ShellState.applyAll, Option.bind_eq_some_iff] at hops
    rcases hops with ⟨st₁, hop, hrest⟩
    simp only [ShellState.leaking, hop]
    exact (apply_contained hop).trans (ih hrest)

/-! ## 2. Runs -/

/-- From `s` to `t` the trace notes where writes reached outside, and nothing else did. -/
def Confined (s t : Runtime W) : Prop :=
  ∃ new, t.trace.leaks = new ++ s.trace.leaks ∧ Contained new s.state t.state

theorem Confined.refl (s : Runtime W) : Confined s s := ⟨[], rfl, .refl _⟩

theorem Confined.trans {u : Runtime W} (h₁ : Confined s t) (h₂ : Confined t u) :
    Confined s u := by
  rcases h₁ with ⟨new₁, hlog₁, hst₁⟩
  rcases h₂ with ⟨new₂, hlog₂, hst₂⟩
  exact ⟨new₂ ++ new₁, by rw [hlog₂, hlog₁, List.append_assoc], hst₁.trans hst₂⟩

/-- An update outside the shell state. -/
theorem Confined.of_state (hlog : t.trace.leaks = s.trace.leaks)
    (hst : Contained [] s.state t.state) : Confined s t := ⟨[], hlog, hst⟩

theorem Confined.of_inner {st : ShellState} (hst : InnerOnly s.state st) :
    Confined s { s with state := st } := .of_state rfl (.of_innerOnly hst)

theorem confined_chained : Chained (Confined (W := W)) (fun _ _ => True) where
  refl := .refl
  trans := .trans
  cut _ := trivial
  extend _ _ := trivial

theorem Change.confined (hc : Change s t) : Confined s t := by
  cases hc with
  | ops ops st hst => exact ⟨s.state.leaking ops, rfl, applyAll_contained hst⟩
  | inner sc => exact .of_state rfl (.of_innerOnly ⟨sc, rfl⟩)
  | accounting _ hacc | event _ e hacc =>
    rcases hacc with ⟨_, _, _, _, _, rfl⟩
    exact .of_state rfl (.refl _)
  | _ => exact .of_state rfl (.of_eq rfl rfl rfl rfl rfl)

/-- What the trace has noted since `saved`, less the writes to positional parameters. -/
theorem dropPositional_leaks {saved u : Trace} {new : List Leak}
    (hlog : u.leaks = new ++ saved.leaks) :
    (saved.dropPositional u).leaks = new.filter (· ≠ .positional) ++ saved.leaks := by
  simp [Trace.dropPositional, Trace.leaksSince, hlog]

/-- A frame with positional parameters of its own, which are put back at its end. -/
theorem Confined.frame {s' u : Runtime W} (hrun : Confined s' t)
    (hlog : s'.trace.leaks = s.trace.leaks) (houter : s'.state.env = s.state.env)
    (hcwd : s'.state.cwd = s.state.cwd) (hdirs : s'.state.dirStack = s.state.dirStack)
    (humask : s'.state.umask = s.state.umask)
    (htrace : u.trace = s.trace.dropPositional t.trace)
    (hstate : Contained [.positional] t.state u.state)
    (hpositional : u.state.positional = s.state.positional) : Confined s u := by
  rcases hrun with ⟨new, hnew, hst⟩
  refine ⟨new.filter (· ≠ .positional), ?_, ?_⟩
  · rw [htrace]
    exact dropPositional_leaks (by rw [hnew, hlog])
  · have hmem : ∀ l : Leak, l ≠ .positional → l ∉ new.filter (· ≠ .positional) → l ∉ new :=
      fun l hl hnot hin => hnot (by simpa using ⟨hin, hl⟩)
    refine ⟨?_, fun k hk hl => ?_, fun _ => hpositional, fun hl => ?_, fun hl => ?_, fun hl => ?_⟩
    · rw [hstate.depth, hst.depth, houter]
    · have hk' : k ≤ s'.state.env.outer.length := by rw [houter]; exact hk
      have hlevels : ∀ l, Leak.scope l ∈ new → k ≤ l :=
        fun l hin => hl l (by simpa using hin)
      have hk'' : k ≤ t.state.env.outer.length := by rw [hst.depth]; exact hk'
      rw [hstate.scopes k hk'' (by simp), hst.scopes k hk' hlevels]
      simp only [ShellState.outermost, houter]
    · rw [hstate.cwd (by simp), hst.cwd (hmem _ (by simp) hl), hcwd]
    · rw [hstate.dirStack (by simp), hst.dirStack (hmem _ (by simp) hl), hdirs]
    · rw [hstate.umask (by simp), hst.umask (hmem _ (by simp) hl), humask]

/-- A scope of variables of its own, dropped at its end. -/
theorem Confined.newScope
    (hrun : Confined { s with state := { s.state with env := s.state.env.pushScope } } t) :
    Confined s (Interp.leaveSubshell s t) := by
  rcases hrun with ⟨new, hnew, hst⟩
  refine ⟨new, hnew, ?_⟩
  have hdepth : t.state.env.outer.length = s.state.env.outer.length + 1 := hst.depth
  cases houter : t.state.env.outer with
  | nil => simp [houter] at hdepth
  | cons sc scs =>
    have hscs : scs.length = s.state.env.outer.length := by simpa [houter] using hdepth
    have hpop : t.state.env.popScope = ⟨sc, scs⟩ := by simp [ShellEnv.popScope, houter]
    refine ⟨?_, fun k hk hl => ?_, hst.positional, hst.cwd, hst.dirStack, hst.umask⟩
    · simp only [Interp.leaveSubshell, hpop, hscs]
    · have hkept := hst.scopes k (Nat.le_succ_of_le hk) hl
      have hdrop : s.state.env.outer.length + 1 - k = (s.state.env.outer.length - k) + 1 := by
        omega
      simp only [ShellState.outermost, ShellEnv.pushScope, houter, List.length_cons, hscs, hdrop,
        List.drop_succ_cons] at hkept
      simpa only [ShellState.outermost, Interp.leaveSubshell, hpop, hscs] using hkept

theorem enterShebang_confined (s : Runtime W) (path : String) :
    Confined s (Interp.resetSetOptionsForNewShell (Interp.pushSource path s)).enterNested := by
  have hsource : Confined s (Interp.pushSource path s) :=
    .of_state rfl (.of_eq rfl rfl rfl rfl rfl)
  have hreset : Confined (Interp.pushSource path s)
      (Interp.resetSetOptionsForNewShell (Interp.pushSource path s)) :=
    Confined.of_inner (unsetVars_inner Interp.newShellOptions _)
  have hnested : ∀ u : Runtime W, Confined u u.enterNested := fun u => .of_state rfl (.refl _)
  exact (hsource.trans hreset).trans (hnested _)

theorem popCapture_confined (t : Runtime W) : Confined t t.popCapture.2 := by
  unfold Runtime.popCapture
  split
  · exact .refl t
  · exact .of_state rfl (.refl _)

/-- Every scope confines what was confined inside it. -/
theorem Opens.confined {s' : Runtime W} {leave : Runtime W → Runtime W}
    (ho : Opens h s s' leave) (hrun : Confined s' t) : Confined s (leave t) := by
  have hthrough : Confined s s' → Confined t (leave t) → Confined s (leave t) :=
    fun henter hleave => (henter.trans hrun).trans hleave
  cases ho with
  | frame name args | arguments name args =>
    exact Confined.frame hrun rfl rfl rfl rfl rfl rfl
      ⟨rfl, fun _ _ _ => rfl, fun hl => absurd (by simp) hl, fun _ => rfl, fun _ => rfl,
        fun _ => rfl⟩ rfl
  | isolated enter newProcess => exact .of_state rfl (.refl _)
  | newScope => exact Confined.newScope hrun
  | shebang path =>
    exact hthrough (enterShebang_confined s path) (.of_state rfl (.of_eq rfl rfl rfl rfl rfl))
  | capture stdout stderr => exact hthrough (.of_state rfl (.refl _)) (popCapture_confined t)
  | _ =>
    exact hthrough (.of_state rfl (.of_eq rfl rfl rfl rfl rfl))
      (.of_state rfl (.of_eq rfl rfl rfl rfl rfl))

theorem Reach.confined (hr : Reach h s t) : Confined s t :=
  confined_chained.of_runs (fun _ _ hu => hu.change.confined)
    (fun _ _ _ _ ho hrun => ho.confined hrun) hr

/-! ## 3. Subshells -/

/-- The parent's shell is as it was: its variables in every scope with their attributes
    (options and traps are variables), and everything else a subshell must not reach. -/
structure SameShell (s t : Runtime W) : Prop where
  outer : t.state.env.outer = s.state.env.outer
  inner : ∀ name, IndexMap.get t.state.env.inner name = IndexMap.get s.state.env.inner name
  functions : t.functions = s.functions
  aliases : t.aliases = s.aliases
  positional : t.state.positional = s.state.positional
  cwd : t.state.cwd = s.state.cwd
  dirStack : t.state.dirStack = s.state.dirStack
  umask : t.state.umask = s.state.umask

/-- A leak that reaches the shell whose innermost scope has the level `depth`. -/
def Leak.reaches (depth : Nat) : Leak → Bool
  | .scope level => level ≤ depth
  | _ => true

/-- A trap variable that a subshell can put back: it is unset, or readonly, or a plain
    variable of the innermost scope. -/
def ShellState.TrapRestorable (st : ShellState) (name : String) : Prop :=
  st.env.get name = none ∨
    (∃ v, st.env.get name = some v ∧ v.readonly = true ∧ v.nameref = false) ∨
    ∃ text, IndexMap.get st.env.inner name = some (.ofScalar text) ∧
      st.env.outer.findSome? (IndexMap.get · name) = none

theorem unsetVar_inner_get (st : ShellState) (name other : String) :
    IndexMap.get (st.unsetVar name).env.inner other =
      if name = other ∧ st.isVarReadonly name = false then none
      else IndexMap.get st.env.inner other := by
  cases hro : st.isVarReadonly name with
  | true => simp [ShellState.unsetVar, hro]
  | false =>
    simp only [ShellState.unsetVar, hro, Bool.false_eq_true, if_false, ShellEnv.remove, get_remove,
      and_true]

/-- The variable is not dynamic: its value is that of its entry. -/
theorem getVar_trap (hname : name = "_TRAP_EXIT" ∨ name = "_TRAP_IGNORE_EXIT")
    (st : ShellState) : st.getVar name = st.getEnvVar name := by
  rcases hname with rfl | rfl
  · have hindex : ShellState.positionalParamIndex "_TRAP_EXIT" = none := by decide
    simp [ShellState.getVar, hindex]
  · have hindex : ShellState.positionalParamIndex "_TRAP_IGNORE_EXIT" = none := by decide
    simp [ShellState.getVar, hindex]

/-- A trap variable that is not visible is written as a plain variable. -/
theorem writeVar_trap (hname : name = "_TRAP_EXIT" ∨ name = "_TRAP_IGNORE_EXIT")
    {st : ShellState} (hget : st.env.get name = none) (text : String) :
    st.writeVar name text = st.setEntry name (.ofScalar text) := by
  have hstart : ['_'].isPrefixOf name.toList = true := by
    rcases hname with rfl | rfl <;> decide
  simp [ShellState.writeVar, hget, hstart, ShellVar.ofScalar]

/-- What a subshell took from one of its trap variables is put back. -/
theorem restoreTrap_spec (hname : name = "_TRAP_EXIT" ∨ name = "_TRAP_IGNORE_EXIT")
    {st₀ : ShellState} (hplain : st₀.TrapRestorable name)
    (houter : s.state.env.outer = st₀.env.outer)
    (hinner : IndexMap.get s.state.env.inner name =
      if st₀.isVarReadonly name = false then none else IndexMap.get st₀.env.inner name)
    (hrun : Interp.restoreTrap name (st₀.getVar name) s = .ok t) :
    ∃ sc raised, t = { s with
        state := { s.state with env := { s.state.env with inner := sc } }
        trace := { s.trace with raised := raised } } ∧
      IndexMap.get sc name = IndexMap.get st₀.env.inner name ∧
      ∀ other ≠ name, IndexMap.get sc other = IndexMap.get s.state.env.inner other := by
  rw [getVar_trap hname] at hrun
  rcases hplain with hunset | ⟨v, hget, hro, hnameref⟩ | ⟨text, hget, habsent⟩
  · -- unset before, and unset again
    have hvalue : st₀.getEnvVar name = none := by simp [ShellState.getEnvVar, hunset]
    have hinner₀ : IndexMap.get st₀.env.inner name = none := by
      rw [ShellEnv.get_eq] at hunset
      exact (Option.or_eq_none_iff.mp hunset).1
    rw [hvalue] at hrun
    cases hrun
    rcases InnerOnly.unsetVar s.state name with ⟨sc, hsc⟩
    have hnow := fun other => unsetVar_inner_get s.state name other
    rw [hsc] at hnow
    refine ⟨sc, s.trace.raised, by rw [hsc], ?_, fun other hne => ?_⟩
    · have hhere := hnow name
      rw [hinner, hinner₀] at hhere
      simpa [hinner₀] using hhere
    · simpa [Ne.symm hne] using hnow other
  · -- readonly: neither the unset nor the write does anything
    have hro₀ : st₀.isVarReadonly name = true := by simp [ShellState.isVarReadonly, hget, hro]
    have hsame : s.state.env.get name = some v := by
      rw [ShellEnv.get_eq, ShellEnv.below] at hget
      rw [ShellEnv.get_eq, hinner, ShellEnv.below, houter, hro₀]
      simpa using hget
    have htarget : ∀ other, ShellState.namerefTarget v other = none := by
      simp [ShellState.namerefTarget, hnameref]
    have hvalue : st₀.getEnvVar name = some v.value.asScalar := by
      simp [ShellState.getEnvVar, hget, htarget]
    have hwrite : s.state.writeVar name v.value.asScalar = s.state := by
      simp [ShellState.writeVar, hsame, hro]
    have hfollows : s.state.follows name = false := by
      simp [ShellState.follows, hsame, htarget]
    rcases setVar_run hfollows v.value.asScalar with ⟨raised, hrestore⟩
    rw [hvalue] at hrun
    rw [hwrite] at hrestore
    cases hrestore.symm.trans hrun
    refine ⟨s.state.env.inner, raised, rfl, ?_, fun _ _ => rfl⟩
    rw [hinner, hro₀]
    rfl
  · -- a plain variable, removed and written again
    have hget₀ : st₀.env.get name = some (.ofScalar text) := by
      rw [ShellEnv.get_eq, hget]
      rfl
    have hro₀ : st₀.isVarReadonly name = false := by
      simp [ShellState.isVarReadonly, hget₀, ShellVar.ofScalar]
    have hvalue : st₀.getEnvVar name = some text := by
      simp [ShellState.getEnvVar, hget₀, ShellState.namerefTarget, ShellVar.ofScalar,
        VarValue.asScalar]
    have hnone : s.state.env.get name = none := by
      rw [ShellEnv.get_eq, hinner, ShellEnv.below, houter, habsent, hro₀]
      rfl
    have hfollows : s.state.follows name = false := by
      simp [ShellState.follows, hnone]
    rcases setVar_run hfollows text with ⟨raised, hrestore⟩
    rw [hvalue] at hrun
    rw [writeVar_trap hname hnone] at hrestore
    cases hrestore.symm.trans hrun
    refine ⟨IndexMap.insert s.state.env.inner name (.ofScalar text), raised, rfl, ?_,
      fun other hne => ?_⟩
    · rw [get_insert, if_pos rfl, hget]
    · rw [get_insert, if_neg (Ne.symm hne)]

/-- The scopes after the body of a subshell, when no write reached those of the parent. -/
theorem popScope_of_contained {st st' : ShellState} {leaks : List Leak}
    (hst : Contained leaks { st with env := st.env.pushScope } st')
    (hkept : ∀ l ∈ leaks, l.reaches st.env.outer.length = false) :
    st'.env.popScope = st.env := by
  have hlevels : ∀ l, Leak.scope l ∈ leaks → st.env.outer.length + 1 ≤ l := by
    intro l hl
    have hreach := hkept _ hl
    simp only [Leak.reaches, decide_eq_false_iff_not] at hreach
    omega
  have hdepth : st'.env.outer.length = st.env.outer.length + 1 := hst.depth
  have hscopes := hst.scopes (st.env.outer.length + 1) (Nat.le_refl _) hlevels
  simp only [ShellState.outermost, ShellEnv.pushScope, hdepth, List.length_cons, Nat.sub_self,
    List.drop_zero] at hscopes
  simp [ShellEnv.popScope, hscopes]

/-- The leaks noted since `s`, when it is known what was added. -/
theorem leaksSince_of_append {new : List Leak} (hlog : t.trace.leaks = new ++ s.trace.leaks) :
    s.trace.leaksSince t.trace = new := by
  simp [Trace.leaksSince, hlog]

/-- Putting a trap variable back reaches no other scope. -/
theorem restoreTrap_leaks {value : Option String}
    (hrun : Interp.restoreTrap name value s = .ok t) : t.trace.leaks = s.trace.leaks := by
  cases value with
  | none =>
    cases hrun
    rfl
  | some v =>
    have hset : s.setVar name v = .ok t := hrun
    unfold Runtime.setVar Runtime.applyOps at hset
    split at hset
    · cases hset
    · next st hst =>
      cases hset
      simp only [ShellState.applyAll, Option.bind_eq_some_iff] at hst
      rcases hst with ⟨st₁, hap, -⟩
      simp [Runtime.noteWrites, ShellState.leaking, ShellState.leak, hap]

theorem unsetVar_isVarReadonly (st : ShellState) {name other : String} (hne : name ≠ other) :
    (st.unsetVar name).isVarReadonly other = st.isVarReadonly other := by
  have hget : (st.unsetVar name).env.get other = st.env.get other := by
    rw [ShellState.get_unsetVar, if_neg (fun h => hne h.1)]
  simp only [ShellState.isVarReadonly, hget]

/-- The trap variables are gone inside a subshell, unless they are readonly. -/
theorem unsetTraps_get (st : ShellState) (name : String)
    (hname : name = "_TRAP_EXIT" ∨ name = "_TRAP_IGNORE_EXIT") :
    IndexMap.get ((st.unsetVar "_TRAP_EXIT").unsetVar "_TRAP_IGNORE_EXIT").env.inner name =
      if st.isVarReadonly name = false then none else IndexMap.get st.env.inner name := by
  rcases hname with rfl | rfl
  · rw [unsetVar_inner_get, if_neg (fun h => absurd h.1 (by decide)), unsetVar_inner_get]
    simp
  · rw [unsetVar_inner_get, unsetVar_isVarReadonly st (by decide), unsetVar_inner_get st,
      if_neg (fun h : "_TRAP_EXIT" = "_TRAP_IGNORE_EXIT" ∧ _ => absurd h.1 (by decide))]
    simp

/-- The other variables are there. -/
theorem unsetTraps_get_other (st : ShellState) (hexit : name ≠ "_TRAP_EXIT")
    (hignore : name ≠ "_TRAP_IGNORE_EXIT") :
    IndexMap.get ((st.unsetVar "_TRAP_EXIT").unsetVar "_TRAP_IGNORE_EXIT").env.inner name =
      IndexMap.get st.env.inner name := by
  rw [unsetVar_inner_get, if_neg (fun h => hignore h.1.symm), unsetVar_inner_get,
    if_neg (fun h => hexit h.1.symm)]

/-- **A subshell leaves its parent as it was when no write of its body reaches outside.**
    For every host, every body, every runtime state and every depth: if the run noted no
    leak into the parent's scopes, its positional parameters, working directory,
    directory stack or umask, and the EXIT trap variables can be put back, then the whole
    shell of the parent is unchanged. -/
theorem subshell_sameShell (h : Host W P) (n : Nat) (body : List CompleteCommand) (s t : Runtime W)
    (hrun : Interp.executeCommandBody h (Interp.interp h n) (.subshell body []) s = .ok t)
    (hkept : ∀ l ∈ s.trace.leaksSince t.trace, l.reaches s.state.env.outer.length = false)
    (htrap : s.state.TrapRestorable "_TRAP_EXIT")
    (hignore : s.state.TrapRestorable "_TRAP_IGNORE_EXIT") : SameShell s t := by
  have hrun' : Interp.executeSubshell h (Interp.interp h n) body s = .ok t := hrun
  unfold Interp.executeSubshell at hrun'
  rcases bind_eq_ok.mp hrun' with ⟨u, hbody, hrest⟩
  rcases bind_eq_ok.mp hrest with ⟨u₁, hexit, hrest⟩
  rcases bind_eq_ok.mp hrest with ⟨u₂, hign, hlast⟩
  cases hlast
  -- the body, from the new scope to the state before it is dropped
  have hgoes := Interp.goes_subshellBody (Interp.walks_interp h n) (Interp.enterSubshell s) body
  rw [hbody] at hgoes
  rcases hgoes.confined with ⟨new, hlog, hst⟩
  have hlog₂ : u₂.trace.leaks = new ++ s.trace.leaks := by
    rw [restoreTrap_leaks hign, restoreTrap_leaks hexit]
    exact hlog
  have hnew : ∀ l ∈ new, l.reaches s.state.env.outer.length = false := by
    have hsince : s.trace.leaksSince (u₂.requestExit s.exec.exitRequested).trace = new :=
      leaksSince_of_append (t := u₂.requestExit s.exec.exitRequested) hlog₂
    rw [hsince] at hkept
    exact hkept
  -- the scopes of the parent, without the trap variables
  have houter₂ : ((s.state.unsetVar "_TRAP_EXIT").unsetVar "_TRAP_IGNORE_EXIT").env.outer =
      s.state.env.outer := by
    rcases (InnerOnly.unsetVar s.state "_TRAP_EXIT").trans (InnerOnly.unsetVar _ _) with ⟨sc, hsc⟩
    rw [hsc]
  have hpop : u.state.env.popScope =
      ((s.state.unsetVar "_TRAP_EXIT").unsetVar "_TRAP_IGNORE_EXIT").env := by
    refine popScope_of_contained hst ?_
    rw [houter₂]
    exact hnew
  have henv : (Interp.leaveSubshell s u).state.env =
      ((s.state.unsetVar "_TRAP_EXIT").unsetVar "_TRAP_IGNORE_EXIT").env := hpop
  -- the trap variables again
  rcases restoreTrap_spec (.inl rfl) htrap (by rw [henv, houter₂])
    (by rw [henv, unsetTraps_get _ _ (.inl rfl)]) hexit with ⟨sc₁, _, hu₁, hsc₁, hother₁⟩
  have hignore₁ : IndexMap.get u₁.state.env.inner "_TRAP_IGNORE_EXIT" =
      if s.state.isVarReadonly "_TRAP_IGNORE_EXIT" = false then none
      else IndexMap.get s.state.env.inner "_TRAP_IGNORE_EXIT" := by
    rw [hu₁]
    exact (hother₁ _ (by decide)).trans (by rw [henv, unsetTraps_get _ _ (.inr rfl)])
  rcases restoreTrap_spec (.inr rfl) hignore (by rw [hu₁]; exact henv ▸ houter₂) hignore₁ hign
    with ⟨sc₂, _, hu₂, hsc₂, hother₂⟩
  have hothers : ∀ name, IndexMap.get sc₂ name = IndexMap.get s.state.env.inner name := by
    intro name
    by_cases hi : name = "_TRAP_IGNORE_EXIT"
    · rw [hi, hsc₂]
    · rw [hother₂ name hi, hu₁]
      by_cases he : name = "_TRAP_EXIT"
      · rw [he]
        exact hsc₁
      · exact (hother₁ name he).trans (by rw [henv, unsetTraps_get_other _ he hi])
  -- what is not a variable
  rcases (InnerOnly.unsetVar s.state "_TRAP_EXIT").trans (InnerOnly.unsetVar _ "_TRAP_IGNORE_EXIT")
    with ⟨sc, hsc⟩
  have hfield : ∀ l : Leak, l.reaches s.state.env.outer.length = true → l ∉ new :=
    fun l hl hmem => by rw [hnew l hmem] at hl; cases hl
  refine ⟨?_, ?_, ?_, ?_, ?_, ?_, ?_, ?_⟩
  · rw [hu₂, hu₁]
    exact henv ▸ houter₂
  · rw [hu₂]
    exact hothers
  · rw [hu₂, hu₁]
    rfl
  · rw [hu₂, hu₁]
    rfl
  · rw [hu₂, hu₁]
    have hpos := hst.positional (hfield _ rfl)
    simp only [Interp.enterSubshell, hsc] at hpos
    exact hpos
  · rw [hu₂, hu₁]
    have hcwd := hst.cwd (hfield _ rfl)
    simp only [Interp.enterSubshell, hsc] at hcwd
    exact hcwd
  · rw [hu₂, hu₁]
    have hdirs := hst.dirStack (hfield _ rfl)
    simp only [Interp.enterSubshell, hsc] at hdirs
    exact hdirs
  · rw [hu₂, hu₁]
    have humask := hst.umask (hfield _ rfl)
    simp only [Interp.enterSubshell, hsc] at humask
    exact humask

/-- The run of `( body )` on the bare host, from a new shell. -/
def runSubshell (body : List CompleteCommand) : Run Unit (Runtime Unit) :=
  Interp.executeCommandBody (.ofScript "" []) (Interp.interp (.ofScript "" []) 5)
    (.subshell body []) (.initial () ⟨0, 0, 0, 0⟩ true)

/-- `PWD=/tmp; false`. -/
def assigningBody : List CompleteCommand :=
  [.ofLists [⟨.single (.assign [⟨"PWD", some (.ofText "/tmp")⟩] []), []⟩, ⟨.ofWords ["false"], []⟩]]

theorem subshell_sameShell_of_assignment :
    ∃ t, runSubshell assigningBody = .ok t ∧ t.state.lastStatus = 1 ∧
      SameShell (.initial () ⟨0, 0, 0, 0⟩ true) t := by
  have hobserved : (runSubshell assigningBody).toOption.map
      (fun t => (t.state.lastStatus, Trace.new.leaksSince t.trace)) = some (1, []) := by
    decide +kernel
  cases hrun : runSubshell assigningBody with
  | error u =>
    rw [hrun] at hobserved
    cases hobserved
  | ok t =>
    rw [hrun] at hobserved
    have hpair := Prod.mk.inj (Option.some.inj hobserved)
    refine ⟨t, rfl, hpair.1, subshell_sameShell _ 5 assigningBody _ t hrun ?_ (.inl rfl) (.inl rfl)⟩
    intro l hl
    have hempty : Trace.new.leaksSince t.trace = [] := hpair.2
    rw [show (Runtime.initial () ⟨0, 0, 0, 0⟩ true).trace = Trace.new from rfl, hempty] at hl
    cases hl

/-- `( cd /tmp )` moves the parent. -/
theorem subshell_leaks_cwd :
    ∃ t, runSubshell [.ofLists [⟨.ofWords ["cd", "/tmp"], []⟩]] = .ok t ∧
      ¬ SameShell (.initial () ⟨0, 0, 0, 0⟩ true) t := by
  have hcwd : (runSubshell [.ofLists [⟨.ofWords ["cd", "/tmp"], []⟩]]).toOption.map
      (·.state.cwd) = some "/tmp" := by decide +kernel
  cases hrun : runSubshell [.ofLists [⟨.ofWords ["cd", "/tmp"], []⟩]] with
  | error u =>
    rw [hrun] at hcwd
    cases hcwd
  | ok t =>
    rw [hrun] at hcwd
    refine ⟨t, rfl, fun hsame => ?_⟩
    have hthere : t.state.cwd = "/tmp" := Option.some.inj hcwd
    have hhere : t.state.cwd = "/" := hsame.cwd
    rw [hthere] at hhere
    exact absurd hhere (by decide)

end Wasmsh

import Wasmsh.Reachability
import Wasmsh.Variables
import Wasmsh.BareHost

/-!
# Function-local variables

A function has no scope of its own: `local` saves the text of a variable on a stack and
overwrites it, and the end of the call writes the texts back, newest first, through
`set_var` and `unset_var`.  This module says for which variables that gives the entry of
before the call.
-/

namespace Wasmsh

open Hir IndexMap Bounded

variable {W P : Type} {h : Host W P} {s t : Runtime W}
variable {st : ShellState} {saves : List LocalSave}

/-! ## 1. Writing the saved texts back -/

/-- A saved variable and its text, none for one that was unset. -/
abbrev LocalSave := String × Option String

namespace ShellState

/-- One saved variable is put back. -/
def restoreLocal (st : ShellState) (e : LocalSave) : ShellState :=
  match e.2 with
  | some value => st.writeVar e.1 value
  | none => st.unsetVar e.1

/-- The saved variables are put back, the first of the list first. -/
def restoreAll (st : ShellState) (saves : List LocalSave) : ShellState :=
  saves.foldl restoreLocal st

/-- The name is not declared nameref. -/
def plain (st : ShellState) (name : String) : Prop := ∀ v, st.env.get name = some v → v.nameref = false

theorem plain.not_follows {name : String} (hplain : st.plain name) :
    st.follows name = false := by
  unfold follows
  cases hget : st.env.get name with
  | none => rfl
  | some v => simp [namerefTarget, hplain v hget]

theorem restoreLocal_get_of_ne {e : LocalSave} {name : String}
    (hne : e.1 ≠ name) : (st.restoreLocal e).env.get name = st.env.get name := by
  unfold restoreLocal
  split
  · exact get_writeVar_of_ne hne _
  · rw [get_unsetVar, if_neg (fun hc => hne hc.1)]

theorem restoreLocal_below (st : ShellState) (e : LocalSave) (name : String) :
    (st.restoreLocal e).env.below name = st.env.below name := by
  have houter : (st.restoreLocal e).env.outer = st.env.outer := by
    unfold restoreLocal
    split
    · rcases writeVar_inner st e.1 _ with ⟨sc, hsc⟩
      rw [hsc]
    · rcases InnerOnly.unsetVar st e.1 with ⟨sc, hsc⟩
      rw [hsc]
  unfold ShellEnv.below
  rw [houter]

/-- A readonly variable keeps its entry. -/
theorem restoreLocal_of_readonly {e : LocalSave}
    (hro : st.isVarReadonly e.1 = true) : st.restoreLocal e = st := by
  unfold restoreLocal
  split
  · exact writeVar_of_readonly hro _
  · simp [unsetVar, hro]

theorem restoreLocal_some {name : String} (hro : st.isVarReadonly name = false) (value : String) :
    (st.restoreLocal (name, some value)).env.get name = some (st.written name value) := by
  simp [restoreLocal, writeVar_eq hro]

theorem restoreLocal_none {name : String} (hro : st.isVarReadonly name = false) :
    (st.restoreLocal (name, none)).env.get name = st.env.below name := by
  simp [restoreLocal, get_unsetVar, hro]

/-- The saved variables can be put back without following a nameref: none of them is
    one, and one that is to be unset is in no scope below, or readonly. -/
def Restoring (st : ShellState) (saves : List LocalSave) : Prop :=
  ∀ e ∈ saves, st.plain e.1 ∧
    (e.2 = none → st.isVarReadonly e.1 = true ∨ st.env.below e.1 = none)

/-- What can be put back still can after one of the variables is. -/
theorem Restoring.step {e : LocalSave}
    (hrest : st.Restoring (e :: saves)) : (st.restoreLocal e).Restoring saves := by
  intro e' he'
  have hold := hrest e' (List.mem_cons_of_mem _ he')
  by_cases hname : e.1 = e'.1
  · cases hro : st.isVarReadonly e.1 with
    | true => rwa [restoreLocal_of_readonly hro]
    | false =>
      have hhead := hrest e (List.mem_cons_self ..)
      rcases e with ⟨name, value⟩
      cases value with
      | some value =>
        have hget := restoreLocal_some hro value
        constructor
        · intro v hv
          rw [← hname, hget] at hv
          cases hv
          cases hentry : st.env.get name with
          | none => simp [written, hentry]
          | some w => simpa [written, hentry] using hhead.1 w hentry
        · intro hnone
          rw [restoreLocal_below]
          rcases hold.2 hnone with hro' | hbelow
          · rw [← hname, hro] at hro'
            cases hro'
          · exact .inr hbelow
      | none =>
        have hbelow : st.env.below name = none := by
          rcases hhead.2 rfl with hro' | hbelow
          · rw [hro] at hro'
            cases hro'
          · exact hbelow
        have hget := restoreLocal_none hro
        rw [hbelow] at hget
        constructor
        · intro v hv
          rw [← hname, hget] at hv
          cases hv
        · intro _
          rw [restoreLocal_below, ← hname]
          exact .inr hbelow
  · have hget : (st.restoreLocal e).env.get e'.1 = st.env.get e'.1 := restoreLocal_get_of_ne hname
    refine ⟨fun v hv => hold.1 v (hget ▸ hv), fun hnone => ?_⟩
    rw [restoreLocal_below, isVarReadonly, hget]
    exact hold.2 hnone

theorem restoreAll_get_of_notMem {name : String}
    (hmem : name ∉ saves.map Prod.fst) : (st.restoreAll saves).env.get name = st.env.get name := by
  induction saves generalizing st with
  | nil => rfl
  | cons e saves ih =>
    simp only [List.map_cons, List.mem_cons, not_or] at hmem
    exact (ih hmem.2).trans (restoreLocal_get_of_ne (Ne.symm hmem.1))

theorem restoreAll_append (st : ShellState) (saves saves' : List LocalSave) :
    st.restoreAll (saves ++ saves') = (st.restoreAll saves).restoreAll saves' :=
  List.foldl_append

end ShellState

/-- `call_shell_function` puts the saved variables back when none of them is a nameref. -/
theorem restoreLocals_eq (hrest : s.state.Restoring saves) :
    ∃ raised, Interp.restoreLocals saves s = .ok { s with
      state := s.state.restoreAll saves
      trace := { s.trace with raised := raised } } := by
  induction saves generalizing s with
  | nil => exact ⟨s.trace.raised, rfl⟩
  | cons e saves ih =>
    rcases e with ⟨name, value⟩
    have hplain := (hrest (name, value) (List.mem_cons_self ..)).1
    cases value with
    | some value =>
      rcases setVar_run hplain.not_follows value with ⟨raised, hset⟩
      unfold Interp.restoreLocals
      rw [hset]
      exact ih (s := { s with
        state := s.state.writeVar name value
        trace := { s.trace with raised := raised } }) hrest.step
    | none => exact ih (s := { s with state := s.state.unsetVar name }) hrest.step

/-! ## 2. Which variables get their old entry -/

namespace ShellState

/-- The attributes `set_var` keeps: exported, integer and nameref, unset variables having
    none. -/
def attributes (st : ShellState) (name : String) : Bool × Bool × Bool :=
  let old := st.env.get name
  ((old.map (·.exported)).getD false, (old.map (·.integer)).getD false,
    (old.map (·.nameref)).getD false)

/-- `set -a` does not change the attributes of the name when it is written. -/
def keepsExport (st : ShellState) (name : String) : Prop :=
  (st.attributes name).1 = true ∨ st.autoExports name = false

theorem written_eq {name : String} (hkeeps : st.keepsExport name) (value : String) :
    st.written name value = ⟨.scalar value, (st.attributes name).1, false,
      (st.attributes name).2.1, (st.attributes name).2.2⟩ := by
  rcases hkeeps with hexported | hauto
  · simp only [attributes] at hexported
    simp [written, attributes, hexported]
  · simp [written, attributes, hauto]

/-- Newer saves of a variable that is never unset meanwhile change neither its attributes
    nor that it can be written. -/
theorem restoreAll_attributes {name : String}
    (hset : ∀ e ∈ saves, e.1 = name → e.2.isSome) (hro : st.isVarReadonly name = false)
    (hkeeps : (st.attributes name).1 = true ∨
      st.autoExports name = false ∧ "SHOPT_a" ∉ saves.map Prod.fst) :
    (st.restoreAll saves).isVarReadonly name = false ∧
      (st.restoreAll saves).attributes name = st.attributes name ∧
      (st.restoreAll saves).keepsExport name := by
  induction saves generalizing st with
  | nil => exact ⟨hro, rfl, hkeeps.imp_right And.left⟩
  | cons e saves ih =>
    rcases e with ⟨other, value⟩
    have hauto : "SHOPT_a" ∉ (((other, value) :: saves).map Prod.fst) →
        (st.restoreLocal (other, value)).autoExports name = st.autoExports name := by
      intro hmem
      simp only [List.map_cons, List.mem_cons, not_or] at hmem
      simp [autoExports, restoreLocal_get_of_ne (e := (other, value)) (Ne.symm hmem.1)]
    have hstep : (st.restoreLocal (other, value)).isVarReadonly name = false ∧
        (st.restoreLocal (other, value)).attributes name = st.attributes name := by
      by_cases hname : other = name
      · subst hname
        rcases Option.isSome_iff_exists.mp (hset (other, value) (List.mem_cons_self ..) rfl) with
          ⟨text, rfl⟩
        have hget := restoreLocal_some hro text
        rw [written_eq (hkeeps.imp_right And.left)] at hget
        constructor
        · simp [isVarReadonly, hget]
        · simp only [attributes, hget]
          rfl
      · have hget : (st.restoreLocal (other, value)).env.get name = st.env.get name :=
          restoreLocal_get_of_ne hname
        constructor
        · simpa [isVarReadonly, hget] using hro
        · simp [attributes, hget]
    rw [← hstep.2]
    apply ih (fun e he => hset e (List.mem_cons_of_mem _ he)) hstep.1
    rw [hstep.2]
    rcases hkeeps with hexported | ⟨hoff, hmem⟩
    · exact .inl hexported
    · refine .inr ⟨(hauto hmem).trans hoff, fun hin => hmem ?_⟩
      rw [List.map_cons]
      exact List.mem_cons_of_mem _ hin

/-- A variable that is in no scope below stays writable whatever is put back. -/
theorem restoreAll_not_readonly (saves : List LocalSave) {name : String}
    (hbelow : st.env.below name = none) (hro : st.isVarReadonly name = false) :
    (st.restoreAll saves).isVarReadonly name = false ∧
      (st.restoreAll saves).env.below name = none := by
  induction saves generalizing st with
  | nil => exact ⟨hro, hbelow⟩
  | cons e saves ih =>
    apply ih ((restoreLocal_below st e name).trans hbelow)
    rcases e with ⟨other, value⟩
    by_cases hname : other = name
    · subst hname
      cases value with
      | some text => simp [isVarReadonly, restoreLocal_some hro text, written]
      | none => simp [isVarReadonly, restoreLocal_none hro, hbelow]
    · simpa [isVarReadonly, restoreLocal_get_of_ne (e := (other, value)) hname] using hro

theorem restoreAll_readonly {name : String}
    {v : ShellVar} (hget : st.env.get name = some v) (hro : v.readonly = true) :
    (st.restoreAll saves).env.get name = some v := by
  induction saves generalizing st with
  | nil => exact hget
  | cons e saves ih =>
    apply ih
    by_cases hname : e.1 = name
    · rw [restoreLocal_of_readonly (by simp [isVarReadonly, hname, hget, hro]), hget]
    · rw [restoreLocal_get_of_ne hname, hget]

/-- The entry a variable has before the call comes back at its end.  Three cases: it was
    unset, its first `local` saved that, and it can be unset again; it is readonly, and
    its entry has not changed; it was a plain scalar whose text the first `local` saved,
    it was never unset before another `local`, it can be written, and it has the same
    attributes again (`set -a` included). -/
def Restorable (before after : ShellState) (saves : List LocalSave) (name : String) : Prop :=
  after.plain name ∧
    match before.env.get name with
    | none => saves.lookup name = some none ∧ after.isVarReadonly name = false
    | some e =>
      (e.readonly = true ∧ after.env.get name = some e) ∨
      (∃ text, e.value = .scalar text ∧ saves.lookup name = some (some text)) ∧
        (∀ e' ∈ saves, e'.1 = name → e'.2.isSome) ∧
        e.readonly = false ∧ after.isVarReadonly name = false ∧
        after.attributes name = (e.exported, e.integer, e.nameref) ∧
        (e.exported = true ∨ after.autoExports name = false ∧ "SHOPT_a" ∉ saves.map Prod.fst)

end ShellState

/-- The first save of a name, with the newer ones after it. -/
theorem split_of_lookup {name : String} {value : Option String}
    (hlookup : saves.lookup name = some value) :
    ∃ older newer, saves = older ++ (name, value) :: newer ∧ name ∉ older.map Prod.fst := by
  induction saves with
  | nil => cases hlookup
  | cons e saves ih =>
    rcases e with ⟨other, v⟩
    by_cases hname : name = other
    · subst hname
      simp only [List.lookup_cons_self, Option.some.injEq] at hlookup
      subst hlookup
      exact ⟨[], saves, rfl, by simp⟩
    · have hne : (name == other) = false := by simpa using hname
      rw [List.lookup_cons, hne] at hlookup
      rcases ih hlookup with ⟨older, newer, rfl, hmem⟩
      exact ⟨(other, v) :: older, newer, rfl, by simpa [hname] using hmem⟩

/-- Every save put back, newest first: the first save of a name decides. -/
theorem restoreAll_reverse_get (st : ShellState) {older newer : List LocalSave} {name : String}
    {value : Option String} (hmem : name ∉ older.map Prod.fst) :
    (st.restoreAll (older ++ (name, value) :: newer).reverse).env.get name =
      ((st.restoreAll newer.reverse).restoreLocal (name, value)).env.get name := by
  have hlist : (older ++ (name, value) :: newer).reverse =
      newer.reverse ++ (name, value) :: older.reverse := by simp
  have hmem' : name ∉ older.reverse.map Prod.fst := by simpa using hmem
  rw [hlist, ShellState.restoreAll_append]
  exact ShellState.restoreAll_get_of_notMem hmem'

/-- A restorable variable has its old entry back. -/
theorem Restorable.get_eq {before after : ShellState} {name : String}
    (hnames : SameNames before after) (hr : ShellState.Restorable before after saves name) :
    (after.restoreAll saves.reverse).env.get name = before.env.get name := by
  unfold ShellState.Restorable at hr
  cases hbefore : before.env.get name with
  | none =>
    rw [hbefore] at hr
    rcases hr with ⟨-, hlookup, hro⟩
    rcases split_of_lookup hlookup with ⟨older, newer, rfl, hmem⟩
    have hbelow : after.env.below name = none := by
      apply hnames.below_eq_none
      rw [ShellEnv.get_eq] at hbefore
      exact (Option.or_eq_none_iff.mp hbefore).2
    have hkept := ShellState.restoreAll_not_readonly newer.reverse hbelow hro
    rw [restoreAll_reverse_get after hmem, ShellState.restoreLocal_none hkept.1, hkept.2]
  | some e =>
    rw [hbefore] at hr
    rcases hr with ⟨-, ⟨hro, hafter⟩ | ⟨⟨text, htext, hlookup⟩, hset, hro, hwritable, hattrs, hexport⟩⟩
    · exact ShellState.restoreAll_readonly hafter hro
    · rcases split_of_lookup hlookup with ⟨older, newer, rfl, hmem⟩
      have hkept := @ShellState.restoreAll_attributes after newer.reverse name
        (fun e' he' => hset e' (by simp only [List.mem_reverse] at he'; simp [he'])) hwritable
        (by
          rw [hattrs]
          refine hexport.imp_right (fun hoff => ⟨hoff.1, fun hin => hoff.2 ?_⟩)
          simp only [List.map_reverse, List.mem_reverse] at hin
          simp [hin])
      rw [restoreAll_reverse_get after hmem, ShellState.restoreLocal_some hkept.1 _,
        ShellState.written_eq hkept.2.2, hkept.2.1, hattrs, ← htext, ← hro]

/-! ## 3. Calls -/

/-- The recursion budget of a call is taken: whether the limit is passed, and the state. -/
def enterCall (s : Runtime W) : Bool × Runtime W :=
  let entered := s.vm.budget.enterRecursion s.vm.limits.recursionLimit
  (entered.1.isSome, { s with vm := { s.vm with budget := entered.2 } })

/-- The body of a function and its RETURN trap: what runs before the locals are put
    back. -/
def functionBody (h : Host W P) (r : Recs W P) (argv : List String) (body : Command)
    (s : Runtime W) : Run W (Runtime W) := do
  let t ← r.executeCommand body (Interp.enterFunction argv (enterCall s).2)
  Interp.runReturnTrapIfNeeded h r t

/-- What the `local` commands of a call have saved, oldest first. -/
def callLocals (s t : Runtime W) : List LocalSave :=
  t.exec.localSaveStack.drop s.exec.localSaveStack.length

theorem callShellFunction_eq (h : Host W P) (r : Recs W P) (argv : List String) (body : Command)
    (hentered : (enterCall s).1 = false) :
    Interp.callShellFunction h r argv body s = (do
      let t ← functionBody h r argv body s
      let t ← Interp.restoreLocals (callLocals s t).reverse (Interp.leaveBody (enterCall s).2 t)
      return Interp.leaveFunction (enterCall s).2 t) := by
  have hnone : (s.vm.budget.enterRecursion s.vm.limits.recursionLimit).1 = none := by
    simpa [enterCall] using hentered
  unfold Interp.callShellFunction functionBody
  simp only [hnone]
  exact (bind_assoc _ _ _).symm

/-- A call that passes the recursion limit runs nothing. -/
theorem callShellFunction_of_limit (h : Host W P) (r : Recs W P) (argv : List String)
    (body : Command) (hentered : (enterCall s).1 = true) :
    ∃ t, Interp.callShellFunction h r argv body s = .ok t ∧ t.state.env = s.state.env := by
  rcases Option.isSome_iff_exists.mp hentered with ⟨reason, hreason⟩
  refine ⟨_, by unfold Interp.callShellFunction; simp only [hreason]; rfl, ?_⟩
  rw [writeStderr_state]
  rfl

theorem goes_functionBody (n : Nat) (argv : List String) (body : Command) :
    ∀ t, functionBody h (Interp.interp h n) argv body s = .ok t → SameNames s.state t.state := by
  intro t hbody
  have walks := Interp.walks_interp h n
  have hgoes : Goes h id (Interp.enterFunction argv (enterCall s).2)
      (functionBody h (Interp.interp h n) argv body s) :=
    Goes.bind (walks.executeCommand body _) (fun t => Interp.goes_runReturnTrapIfNeeded walks t)
  rw [hbody] at hgoes
  have hnames : SameNames (Interp.enterFunction argv (enterCall s).2).state t.state :=
    Reach.sameNames hgoes
  exact fun name => hnames name

/-- The names that the call declares: by `local`, which saves them, or through
    `builtin local`, which does not. -/
def callDeclared (s t : Runtime W) : List String :=
  (callLocals s t).map Prod.fst ++ s.trace.declaredSince t.trace

/-- The variables after a call whose body ended in `t`: each name that the call declared
    has the entry of before the call, all others the entry that the body left. -/
def LocalsRestored (s t t' : Runtime W) : Prop :=
  ∀ name, t'.state.env.get name =
    if name ∈ callDeclared s t then s.state.env.get name else t.state.env.get name

/-- **The names a call declares are put back when each of them is restorable**, for every host,
    function body, depth and state, however the body was left; a call that passes the
    recursion limit changes no variable. -/
theorem function_locals_restored (h : Host W P) (n : Nat) (argv : List String) (body : Command)
    (s : Runtime W) :
    ((enterCall s).1 = true → ∃ t', Interp.callShellFunction h (Interp.interp h n) argv body s =
      .ok t' ∧ t'.state.env = s.state.env) ∧
    ∀ t, (enterCall s).1 = false → functionBody h (Interp.interp h n) argv body s = .ok t →
      (∀ name ∈ callDeclared s t,
        ShellState.Restorable s.state t.state (callLocals s t) name) →
      ∃ t', Interp.callShellFunction h (Interp.interp h n) argv body s = .ok t' ∧
        LocalsRestored s t t' := by
  refine ⟨callShellFunction_of_limit h _ argv body, fun t hentered hbody hlocals => ?_⟩
  have hnames := goes_functionBody n argv body t hbody
  -- what is to be unset again was unset before the call, hence in no scope below
  have hrest : t.state.Restoring (callLocals s t).reverse := by
    intro e he
    simp only [List.mem_reverse] at he
    have hlocal := hlocals e.1 (List.mem_append_left _ (List.mem_map_of_mem he))
    unfold ShellState.Restorable at hlocal
    refine ⟨hlocal.1, fun hnone => ?_⟩
    cases hbefore : s.state.env.get e.1 with
    | none =>
      rw [ShellEnv.get_eq] at hbefore
      exact .inr (hnames.below_eq_none (Option.or_eq_none_iff.mp hbefore).2)
    | some v =>
      rw [hbefore] at hlocal
      rcases hlocal.2 with ⟨hro, hafter⟩ | ⟨-, hset, -⟩
      · exact .inl (by simp [ShellState.isVarReadonly, hafter, hro])
      · have hsome := hset e he rfl
        rw [hnone] at hsome
        cases hsome
  rcases restoreLocals_eq (s := Interp.leaveBody (enterCall s).2 t) hrest with ⟨raised, hrestore⟩
  have hcall : Interp.callShellFunction h (Interp.interp h n) argv body s =
      (Interp.restoreLocals (callLocals s t).reverse (Interp.leaveBody (enterCall s).2 t) >>=
        fun t => .ok (Interp.leaveFunction (enterCall s).2 t)) := by
    rw [callShellFunction_eq h _ argv body hentered, hbody]
    rfl
  rw [hrestore] at hcall
  refine ⟨_, hcall, fun name => ?_⟩
  show (t.state.restoreAll (callLocals s t).reverse).env.get name = _
  split
  · next hmem => exact Restorable.get_eq hnames (hlocals name hmem)
  · next hmem =>
    have hsaved : name ∉ (callLocals s t).map Prod.fst :=
      fun hin => hmem (List.mem_append_left _ hin)
    apply ShellState.restoreAll_get_of_notMem
    simpa using hsaved

/-- `f() { local x=2; }; f` where `x` is `1`. -/
theorem function_locals_restored_of_scalar :
    ∃ t', Interp.callShellFunction (.ofScript "" []) (Interp.interp (.ofScript "" []) 3) ["f"]
        (.ofWords ["local", "x=2"]) (.bareWith "x" (.ofScalar "1")) = .ok t' ∧
      t'.state.env.get "x" = some (.ofScalar "1") := by
  have hobserved : (functionBody (.ofScript "" []) (Interp.interp (.ofScript "" []) 3) ["f"]
      (.ofWords ["local", "x=2"]) (.bareWith "x" (.ofScalar "1"))).toOption.map
        (fun t => (t.state.env, t.exec.localSaveStack, t.trace.declared)) =
      some (⟨[("x", .ofScalar "2")], []⟩, [("x", some "1")], []) := by decide +kernel
  cases hbody : functionBody (.ofScript "" []) (Interp.interp (.ofScript "" []) 3) ["f"]
      (.ofWords ["local", "x=2"]) (.bareWith "x" (.ofScalar "1")) with
  | error u =>
    rw [hbody] at hobserved
    cases hobserved
  | ok t =>
    rw [hbody] at hobserved
    obtain ⟨henv, hlog⟩ := Prod.mk.inj (Option.some.inj hobserved)
    obtain ⟨hsaves, hhidden⟩ := Prod.mk.inj hlog
    have hlocals : callLocals (.bareWith "x" (.ofScalar "1")) t = [("x", some "1")] := hsaves
    have hdeclared : callDeclared (.bareWith "x" (.ofScalar "1")) t = ["x"] := by
      rw [callDeclared, hlocals, Trace.declaredSince, hhidden]
      rfl
    rcases (function_locals_restored (.ofScript "" []) 3 ["f"] (.ofWords ["local", "x=2"])
      (.bareWith "x" (.ofScalar "1"))).2 t (by decide) hbody (by
        rw [hlocals, hdeclared]
        intro name hname
        rw [List.mem_singleton] at hname
        subst hname
        have hget : t.state.env.get "x" = some (.ofScalar "2") := by rw [henv]; decide
        have hbefore : (Runtime.bareWith "x" (.ofScalar "1")).state.env.get "x" =
            some (.ofScalar "1") := by decide
        refine ⟨fun v hv => by rw [hget] at hv; cases hv; rfl, ?_⟩
        rw [hbefore]
        refine .inr ⟨⟨"1", rfl, by decide⟩, by simp, rfl, ?_, ?_, .inr ⟨?_, by decide⟩⟩
        · simp [ShellState.isVarReadonly, hget, ShellVar.ofScalar]
        · simp [ShellState.attributes, hget, ShellVar.ofScalar]
        · have hoption : t.state.env.get "SHOPT_a" = none := by rw [henv]; decide
          simp [ShellState.autoExports, hoption]) with ⟨t', hcall, hrestored⟩
    refine ⟨t', hcall, ?_⟩
    rw [hrestored "x", hdeclared, if_pos (by decide)]
    decide

/-- `a=(1 2); f() { local a=3; }; f` leaves a scalar. -/
theorem local_flattens_array :
    ∃ t', Interp.callShellFunction (.ofScript "" []) (Interp.interp (.ofScript "" []) 3) ["f"]
        (.ofWords ["local", "a=3"])
        (.bareWith "a" { ShellVar.ofScalar "" with value := .indexedArray [(0, "1"), (1, "2")] }) =
          .ok t' ∧
      t'.state.env.get "a" = some (.ofScalar "1 2") := by
  have hobserved : (Interp.callShellFunction (.ofScript "" []) (Interp.interp (.ofScript "" []) 3)
      ["f"] (.ofWords ["local", "a=3"]) (.bareWith "a"
        { ShellVar.ofScalar "" with value := .indexedArray [(0, "1"), (1, "2")] })).toOption.map
        (fun t => t.state.env.get "a") = some (some (.ofScalar "1 2")) := by decide +kernel
  cases hcall : Interp.callShellFunction (.ofScript "" []) (Interp.interp (.ofScript "" []) 3)
      ["f"] (.ofWords ["local", "a=3"]) (.bareWith "a"
        { ShellVar.ofScalar "" with value := .indexedArray [(0, "1"), (1, "2")] }) with
  | error u =>
    rw [hcall] at hobserved
    cases hobserved
  | ok t =>
    rw [hcall] at hobserved
    exact ⟨t, rfl, Option.some.inj hobserved⟩

end Wasmsh

import Mathlib.Data.List.TakeWhile
import Wasmsh.Reachability
import Wasmsh.Variables
import Wasmsh.ScalarAssignment

/-!
# Assignments before a command

`V=1 cmd` assigns in the shell's own variables and puts the old entries back after the
command.  The entries to put back are chosen by the names as written, so an assignment
through a nameref changes a variable that nothing restores; every other form of
assignment stays with the name it is written with.
-/

namespace Wasmsh

open Hir IndexMap Bounded

variable {W P : Type} {h : Host W P} {r : Recs W P} {s t : Runtime W}

/-! ## 1. The name of an assignment -/

/-- The variable that an assignment names. -/
def assignmentBase (name : String) : String :=
  String.ofList ((splitAssignmentName name).1.toList.takeWhile (· != '['))

/-- The names that the parser accepts (`is_assignment_text`): an index in brackets, if
    there is one, ends the name. -/
def isAssignmentName (name : String) : Bool :=
  let target := (splitAssignmentName name).1.toList
  isIdentifier (assignmentBase name) && (!target.contains '[' || target.getLast? == some ']')

theorem savePrefixAssignmentTargets_eq (s : Runtime W) (env : List Assignment) :
    Interp.savePrefixAssignmentTargets s env =
      env.map fun a => (assignmentBase a.name, s.state.env.get (assignmentBase a.name)) := by
  unfold Interp.savePrefixAssignmentTargets
  apply List.map_congr_left
  intro a _
  unfold assignmentBase splitAssignmentName
  dsimp only
  split
  · simp
  · simp

theorem takeWhile_eq_self_of_not_contains {cs : List Char} {c : Char}
    (hcs : cs.contains c = false) : cs.takeWhile (· != c) = cs := by
  rw [List.takeWhile_eq_self_iff]
  intro d hd
  simp only [bne_iff_ne, ne_eq]
  rintro rfl
  have hmem : cs.contains d = true := by simpa using hd
  rw [hcs] at hmem
  cases hmem

/-- An assignment writes an element of its variable, or the variable itself. -/
theorem parseArrayElement_cases {name : String} (hname : isAssignmentName name = true) :
    (∃ index, parseArrayElementAssignment (splitAssignmentName name).1 =
      some (assignmentBase name, index)) ∨
    parseArrayElementAssignment (splitAssignmentName name).1 = none ∧
      (splitAssignmentName name).1 = assignmentBase name := by
  unfold isAssignmentName at hname
  unfold parseArrayElementAssignment assignmentBase
  simp only [Bool.and_eq_true, Bool.or_eq_true, Bool.not_eq_true', beq_iff_eq] at hname
  cases hbracket : (splitAssignmentName name).1.toList.contains '[' with
  | true =>
    rw [hbracket] at hname
    rcases hname.2 with hfalse | hlast
    · cases hfalse
    · exact .inl ⟨_, if_pos ⟨hbracket, hlast⟩⟩
  | false =>
    refine .inr ⟨if_neg (fun hc => by rw [hbracket] at hc; cases hc.1), ?_⟩
    rw [takeWhile_eq_self_of_not_contains hbracket, String.ofList_toList]

/-! ## 2. One assignment -/

/-- The expansions of an assignment leave the entry of a name as it is: those of its
    value, and the arithmetic of an integer variable. -/
def ExpansionKeeps (h : Host W P) (r : Recs W P) (name : String) (a : Assignment)
    (s : Runtime W) : Prop :=
  ∀ value s', Interp.expandAssignmentValue h r a.value s = .ok (value, s') →
    s'.state.env.get name = s.state.env.get name ∧
    ∀ final s'', Interp.resolveScalarAssignmentValue h (splitAssignmentName a.name).1 value
        (splitAssignmentName a.name).2 (s'.record (.assign a.name)) = .ok (final, s'') →
      s''.state.env.get name = s.state.env.get name

/-- The scalar assignment is carried out, in `st`: it names no element, is not refused as
    readonly, and its value is no array in parentheses. -/
def WritesScalar (h : Host W P) (r : Recs W P) (a : Assignment) (s : Runtime W)
    (st : ShellState) : Prop :=
  s.state.isVarReadonly (splitAssignmentName a.name).1 = false ∧
    parseArrayElementAssignment (splitAssignmentName a.name).1 = none ∧
    ∃ value s' final s'', Interp.expandAssignmentValue h r a.value s = .ok (value, s') ∧
      compoundBody value = none ∧
      Interp.resolveScalarAssignmentValue h (splitAssignmentName a.name).1 value
        (splitAssignmentName a.name).2 (s'.record (.assign a.name)) = .ok (final, s'') ∧
      s''.state = st

/-- A scalar assignment that goes through a nameref ends at a variable that is saved too,
    or at one that is readonly. -/
def EndsAtSaved (h : Host W P) (r : Recs W P) (saved : List String) (a : Assignment)
    (s : Runtime W) : Prop :=
  ∀ st target, WritesScalar h r a s st → st.follows (splitAssignmentName a.name).1 = true →
    st.setVarTarget (st.varCount + 1) (splitAssignmentName a.name).1 = some target →
    target ∈ saved ∨ st.isVarReadonly target = true

/-- Two states that may differ in the entry of one variable, which stays writable if it
    was. -/
structure OnlyChanges (base : String) (st st' : ShellState) : Prop where
  others : ∀ name ≠ base, st'.env.get name = st.env.get name
  writable : st.isVarReadonly base = false → st'.isVarReadonly base = false

namespace OnlyChanges

variable {base : String} {st st₁ st₂ : ShellState}

theorem refl (base : String) (st : ShellState) : OnlyChanges base st st :=
  ⟨fun _ _ => rfl, id⟩

theorem trans (h₁ : OnlyChanges base st st₁) (h₂ : OnlyChanges base st₁ st₂) :
    OnlyChanges base st st₂ :=
  ⟨fun name hne => (h₂.others name hne).trans (h₁.others name hne), h₂.writable ∘ h₁.writable⟩

theorem setEntry {v : ShellVar} (hro : v.readonly = false) :
    OnlyChanges base st (st.setEntry base v) :=
  ⟨fun name hne => by simp [Ne.symm hne], fun _ => by simp [ShellState.isVarReadonly, hro]⟩

/-- A change of the entry in place that keeps the readonly attribute. -/
theorem updateEntry {f : ShellVar → ShellVar} (hf : ∀ v, (f v).readonly = v.readonly) :
    OnlyChanges base st (st.updateEntry base f) := by
  refine ⟨fun name hne => by simp [Ne.symm hne], fun hro => ?_⟩
  unfold ShellState.isVarReadonly at hro ⊢
  rw [ShellState.get_updateEntry, if_pos rfl]
  cases hget : st.env.get base with
  | none => rfl
  | some v => simpa [hget, hf v] using hro

/-- A write to an array in place, or a new one. -/
theorem arrayWrite {f : ShellVar → ShellVar} {fresh : ShellVar}
    (hf : ∀ v, (f v).readonly = v.readonly) (hfresh : fresh.readonly = false) :
    OnlyChanges base st (match st.env.get base with
      | some v => if v.readonly then st else st.updateEntry base f
      | none => st.setEntry base fresh) := by
  split
  · split
    · exact refl base st
    · exact updateEntry hf
  · exact setEntry hfresh

theorem setArrayElement (index value : String) :
    OnlyChanges base st (st.setArrayElement base index value) :=
  arrayWrite (fun _ => rfl) rfl

theorem initArray (empty : VarValue) : OnlyChanges base st (st.initArray base empty) := by
  unfold ShellState.initArray
  dsimp only
  split
  · exact refl base st
  · exact setEntry rfl

theorem setArrayElements (es : List (String × String)) {st' : ShellState}
    (hops : st.applyAll (es.map fun e => .setArrayElement base e.1 e.2) = some st') :
    OnlyChanges base st st' := by
  induction es generalizing st with
  | nil =>
    cases hops
    exact refl base _
  | cons e es ih => exact (setArrayElement e.1 e.2).trans (ih hops)

theorem compoundArray (inner : List Char) (isAppend : Bool) {st' : ShellState}
    (hops : st.applyAll (assignCompoundArray base inner isAppend) = some st') :
    OnlyChanges base st st' := by
  unfold assignCompoundArray at hops
  dsimp only at hops
  split at hops
  · cases hops
    exact arrayWrite (fun _ => rfl) rfl
  · split at hops
    · exact (initArray _).trans (setArrayElements _ hops)
    · rw [assignIndexedArray_eq] at hops
      exact (initArray _).trans (setArrayElements _ hops)

theorem writeVar (value : String) : OnlyChanges base st (st.writeVar base value) := by
  cases hro : st.isVarReadonly base with
  | true =>
    rw [ShellState.writeVar_of_readonly hro]
    exact refl base st
  | false =>
    rw [ShellState.writeVar_eq hro]
    exact setEntry rfl

end OnlyChanges

/-- What is left of a variable by writes to the saved names only. -/
structure LeftBe (saved : List String) (other : String) (st st' : ShellState) : Prop where
  entry : other ∉ saved → st'.env.get other = st.env.get other
  writable : st.isVarReadonly other = false → st'.isVarReadonly other = false

namespace LeftBe

variable {saved : List String} {other base : String} {st st₁ st₂ : ShellState}

theorem trans (h₁ : LeftBe saved other st st₁) (h₂ : LeftBe saved other st₁ st₂) :
    LeftBe saved other st st₂ :=
  ⟨fun hmem => (h₂.entry hmem).trans (h₁.entry hmem), h₂.writable ∘ h₁.writable⟩

theorem of_get_eq (hget : st₁.env.get other = st.env.get other) : LeftBe saved other st st₁ :=
  ⟨fun _ => hget, fun hro => by rwa [ShellState.isVarReadonly, hget]⟩

theorem of_onlyChanges (hchange : OnlyChanges base st st₁) (hbase : base ∈ saved) :
    LeftBe saved other st st₁ := by
  constructor
  · intro hmem
    exact hchange.others other (fun heq => hmem (heq ▸ hbase))
  · by_cases heq : other = base
    · subst heq
      exact hchange.writable
    · intro hro
      rwa [ShellState.isVarReadonly, hchange.others other heq]

end LeftBe

/-- A scalar write that ends at a saved variable, or is refused there. -/
theorem setVar_leftBe {name value : String} {saved : List String} (other : String)
    (hname : name ∈ saved)
    (hends : ∀ target, s.state.follows name = true →
      s.state.setVarTarget (s.state.varCount + 1) name = some target →
      target ∈ saved ∨ s.state.isVarReadonly target = true)
    (hset : s.setVar name value = .ok t) : LeftBe saved other s.state t.state := by
  have hops := (Runtime.applyOps_ok hset).1
  simp only [ShellState.applyAll, ShellState.apply, Option.bind_eq_some_iff,
    Option.some.injEq] at hops
  rcases hops with ⟨st', hst', hstate⟩
  rw [← hstate]
  cases hfollows : s.state.follows name with
  | false =>
    rw [ShellState.setVar_of_plain hfollows] at hst'
    cases hst'
    exact .of_onlyChanges (.writeVar value) hname
  | true =>
    rw [ShellState.setVar_eq, Option.map_eq_some_iff] at hst'
    rcases hst' with ⟨target, htarget, rfl⟩
    rcases hends target hfollows htarget with hsaved | hro
    · exact .of_onlyChanges (.writeVar value) hsaved
    · rw [ShellState.writeVar_of_readonly hro]
      exact .of_get_eq rfl

/-- One assignment writes at the saved names only. -/
theorem executeAssignment_leftBe {a : Assignment} {saved : List String}
    (hname : isAssignmentName a.name = true) (hsaved : assignmentBase a.name ∈ saved)
    (hends : EndsAtSaved h r saved a s) {other : String} (hkeep : ExpansionKeeps h r other a s)
    (hrun : Interp.executeAssignment h r a s = .ok t) : LeftBe saved other s.state t.state := by
  unfold Interp.executeAssignment at hrun
  dsimp only at hrun
  split at hrun
  · cases hrun
    exact .of_get_eq (by simp)
  · next hro =>
    rcases parseArrayElement_cases hname with ⟨index, hindex⟩ | ⟨hindex, hbase⟩
    · rw [hindex] at hrun
      rcases bind_eq_ok.mp hrun with ⟨⟨value, s'⟩, hexp, hset⟩
      have hops := (Runtime.applyOps_ok hset).1
      simp only [ShellState.applyAll, ShellState.apply, Option.bind_some, Option.some.injEq] at hops
      have hvalue : LeftBe saved other s.state s'.state := .of_get_eq (hkeep value s' hexp).1
      refine hvalue.trans ?_
      rw [← hops]
      exact .of_onlyChanges (.setArrayElement index value) hsaved
    · rw [hindex] at hrun
      rcases bind_eq_ok.mp hrun with ⟨⟨value, s'⟩, hexp, hset⟩
      rw [← hbase] at hsaved
      unfold Interp.assignValue at hset
      cases hbody : compoundBody value with
      | some inner =>
        rw [hbody] at hset
        have hvalue : LeftBe saved other s.state s'.state := .of_get_eq (hkeep value s' hexp).1
        have hchange := OnlyChanges.compoundArray inner _ (Runtime.applyOps_ok hset).1
        exact hvalue.trans (.of_onlyChanges hchange hsaved)
      | none =>
        rw [hbody] at hset
        rcases bind_eq_ok.mp hset with ⟨⟨final, s''⟩, hresolve, hset⟩
        have hvalue : LeftBe saved other s.state s''.state :=
          .of_get_eq ((hkeep value s' hexp).2 final s'' hresolve)
        have hscalar : WritesScalar h r a s s''.state :=
          ⟨by simpa using hro, hindex, value, s', final, s'', hexp, hbody, hresolve, rfl⟩
        exact hvalue.trans (setVar_leftBe other hsaved
          (fun target => hends s''.state target hscalar) hset)

/-! ## 3. The list of assignments -/

/-- Each assignment of the list meets `Q` in the state in which it is executed. -/
def EachAssignment (h : Host W P) (r : Recs W P) (Q : Assignment → Runtime W → Prop) :
    List Assignment → Runtime W → Prop
  | [], _ => True
  | a :: as, s => Q a s ∧
    ∀ s', Interp.executeAssignment h r a s = .ok s' → EachAssignment h r Q as s'

/-- The list writes at the saved names only. -/
theorem executeAssignments_leftBe {as : List Assignment} {saved : List String}
    (hnames : ∀ a ∈ as, isAssignmentName a.name = true)
    (hsaved : ∀ a ∈ as, assignmentBase a.name ∈ saved)
    (hends : EachAssignment h r (EndsAtSaved h r saved) as s) {other : String}
    (hkeep : EachAssignment h r (ExpansionKeeps h r other) as s)
    (hrun : Interp.executeAssignments h r as s = .ok t) :
    LeftBe saved other s.state t.state := by
  induction as generalizing s with
  | nil =>
    cases hrun
    exact .of_get_eq rfl
  | cons a as ih =>
    rcases bind_eq_ok.mp hrun with ⟨s', hfirst, hrest⟩
    have hone := executeAssignment_leftBe (hnames a (List.mem_cons_self ..))
      (hsaved a (List.mem_cons_self ..)) hends.1 hkeep.1 hfirst
    exact hone.trans (ih (fun a ha => hnames a (List.mem_cons_of_mem _ ha))
      (fun a ha => hsaved a (List.mem_cons_of_mem _ ha)) (hends.2 s' hfirst)
      (hkeep.2 s' hfirst) hrest)

/-- Entries are put back, the first of the list first. -/
def restoreEntries (saves : List (String × Option ShellVar)) (st : ShellState) : ShellState :=
  saves.foldl (fun st e => match e.2 with
    | some v => st.setEntry e.1 v
    | none => st.unsetVar e.1) st

theorem restoreEntries_get_of_notMem {saves : List (String × Option ShellVar)} {name : String}
    (hmem : name ∉ saves.map Prod.fst) (st : ShellState) :
    (restoreEntries saves st).env.get name = st.env.get name := by
  induction saves generalizing st with
  | nil => rfl
  | cons e saves ih =>
    simp only [List.map_cons, List.mem_cons, not_or] at hmem
    apply (ih hmem.2 _).trans
    rcases e with ⟨other, value⟩
    cases value with
    | some v => simp [Ne.symm hmem.1]
    | none => rw [ShellState.get_unsetVar, if_neg (fun hc => hmem.1 hc.1.symm)]

/-- When all saves of a name agree, it gets that entry back; to be unset again it must be
    writable and in no scope below. -/
theorem restoreEntries_get {saves : List (String × Option ShellVar)} {name : String}
    {prior : Option ShellVar} (hall : ∀ e ∈ saves, e.1 = name → e.2 = prior)
    (hmem : name ∈ saves.map Prod.fst) {st : ShellState}
    (hunset : prior = none → st.isVarReadonly name = false ∧ st.env.below name = none) :
    (restoreEntries saves st).env.get name = prior := by
  induction saves generalizing st with
  | nil => cases hmem
  | cons e saves ih =>
    have hallrest : ∀ e ∈ saves, e.1 = name → e.2 = prior :=
      fun e he => hall e (List.mem_cons_of_mem _ he)
    rcases e with ⟨other, value⟩
    by_cases hname : other = name
    · subst hname
      have hvalue : value = prior := hall (other, value) (List.mem_cons_self ..) rfl
      subst hvalue
      cases value with
      | some v =>
        by_cases hin : other ∈ saves.map Prod.fst
        · exact ih hallrest hin (fun hc => by cases hc)
        · exact (restoreEntries_get_of_notMem hin _).trans (by simp)
      | none =>
        rcases hunset rfl with ⟨hro, hbelow⟩
        have hget : (st.unsetVar other).env.get other = none := by
          rw [ShellState.get_unsetVar, if_pos ⟨rfl, hro⟩, hbelow]
        by_cases hin : other ∈ saves.map Prod.fst
        · refine ih hallrest hin (fun _ => ⟨by simp [ShellState.isVarReadonly, hget], ?_⟩)
          rw [ShellEnv.get_eq] at hget
          exact (Option.or_eq_none_iff.mp hget).2
        · exact (restoreEntries_get_of_notMem hin _).trans hget
    · have hin : name ∈ saves.map Prod.fst := by
        simpa [Ne.symm hname] using hmem
      apply ih hallrest hin
      intro hprior
      rcases hunset hprior with ⟨hro, hbelow⟩
      cases value with
      | some v =>
        refine ⟨by simpa [ShellState.isVarReadonly, hname] using hro, ?_⟩
        exact hbelow
      | none =>
        constructor
        · unfold ShellState.isVarReadonly at hro ⊢
          rwa [ShellState.get_unsetVar, if_neg (fun hc => hname hc.1)]
        · rcases InnerOnly.unsetVar st other with ⟨sc, hsc⟩
          unfold ShellEnv.below at hbelow ⊢
          dsimp only
          rw [hsc]
          exact hbelow

/-! ## 4. Simple commands -/

/-- The words of a simple command, expanded and checked: no words when they expand to
    nothing or an expansion failed. -/
def execArgv (h : Host W P) (r : Recs W P) (e : Exec) (s : Runtime W) :
    Run W (Option (List String) × Runtime W) := do
  let (words, s) ← Interp.resolveCommandSubst h r e.argv s
  Interp.expandChecked h words s

/-- The command itself, by its alias or with its redirections. -/
def execCommand (h : Host W P) (r : Recs W P) (e : Exec) (argv : List String) (s : Runtime W) :
    Run W (Runtime W) :=
  if Interp.aliasPanics s argv then .error s
  else
    match Interp.aliasText s argv with
    | some text => do
      let (events, s) ← r.executeInputInner text s
      return Interp.mergeSubEvents h s events
    | none => Interp.withRedirections h r e.redirections
        (fun s => r.executeArgvCommand argv (Interp.traceCommand h argv s)) s

/-- The three parts of `execute_exec`. -/
theorem executeExec_eq (e : Exec) :
    Interp.executeExec h r e s = (do
      let (argv, s₁) ← execArgv h r e s
      match argv with
      | none => return s₁
      | some argv => do
        let s₂ ← Interp.executeAssignments h r e.env s₁
        let s₃ ← execCommand h r e argv s₂
        return Interp.restorePrefixAssignments
          (Interp.savePrefixAssignmentTargets s₁ e.env) argv s₃) := by
  unfold Interp.executeExec execArgv
  rw [bind_assoc]
  congr 1
  funext ⟨words, s⟩
  dsimp only
  congr 1
  funext ⟨argv, s₁⟩
  cases argv with
  | none => rfl
  | some argv =>
    dsimp only
    congr 1
    funext s₂
    unfold execCommand
    cases Interp.aliasPanics s₂ argv with
    | true => rfl
    | false =>
      rw [if_neg Bool.false_ne_true, if_neg Bool.false_ne_true]
      cases Interp.aliasText s₂ argv with
      | none => rfl
      | some text =>
        dsimp only
        rw [bind_assoc]
        rfl

theorem goes_execCommand (n : Nat) (e : Exec) (argv : List String) :
    Goes h id s (execCommand h (Interp.interp h n) e argv s) := by
  have walks := Interp.walks_interp h n
  unfold execCommand
  split
  · exact .here _
  · split
    · next text _ =>
      apply Goes.bind (walks.executeInputInner text s)
      rintro ⟨events, s⟩
      exact reach_mergeSubEvents events
    · apply Interp.goes_withRedirections walks
      intro s
      exact Goes.after (Interp.reach_traceCommand s argv) (walks.executeArgvCommand argv _)

/-- The command itself has not assigned the variable: neither an expansion of its words,
    nor one of a value before it, nor the call. -/
structure NotAssigned (h : Host W P) (r : Recs W P) (e : Exec) (name : String)
    (s s₁ s₂ s₃ : Runtime W) : Prop where
  words : s₁.state.env.get name = s.state.env.get name
  values : EachAssignment h r (ExpansionKeeps h r name) e.env s₁
  call : s₃.state.env.get name = s₂.state.env.get name

/-- **Assignments before a command are undone when none of them goes through a nameref to
    a variable that is not saved**: for every host, command, depth and state, every
    variable that the command itself has not assigned and does not promote has the entry
    of before.  A command whose words expand to nothing assigns nothing. -/
theorem prefix_assignments_undone (h : Host W P) (n : Nat) (e : Exec) (s : Runtime W)
    (hnames : ∀ a ∈ e.env, isAssignmentName a.name = true) :
    (∀ s₁, execArgv h (Interp.interp h n) e s = .ok (none, s₁) →
      Interp.executeExec h (Interp.interp h n) e s = .ok s₁) ∧
    ∀ argv s₁ s₂ s₃, execArgv h (Interp.interp h n) e s = .ok (some argv, s₁) →
      Interp.executeAssignments h (Interp.interp h n) e.env s₁ = .ok s₂ →
      execCommand h (Interp.interp h n) e argv s₂ = .ok s₃ →
      EachAssignment h (Interp.interp h n) (EndsAtSaved h (Interp.interp h n)
        (e.env.map fun a => assignmentBase a.name)) e.env s₁ →
      ∃ t, Interp.executeExec h (Interp.interp h n) e s = .ok t ∧
        ∀ name ∉ Interp.promotedPrefixNames argv,
          NotAssigned h (Interp.interp h n) e name s s₁ s₂ s₃ →
          t.state.env.get name = s.state.env.get name := by
  rw [executeExec_eq]
  refine ⟨fun s₁ hargv => by rw [hargv]; rfl, fun argv s₁ s₂ s₃ hargv hassign hcall hends => ?_⟩
  rw [hargv]
  dsimp only [bind, Except.bind]
  rw [hassign]
  dsimp only
  rw [hcall]
  refine ⟨_, rfl, fun name hpromoted hnot => ?_⟩
  have hlist := executeAssignments_leftBe hnames
    (fun a ha => List.mem_map_of_mem (f := fun a : Assignment => assignmentBase a.name) ha) hends
    hnot.values hassign
  have hassigned : Goes h id s₁ (Interp.executeAssignments h (Interp.interp h n) e.env s₁) :=
    Interp.goes_executeAssignments (Interp.walks_interp h n) s₁ e.env
  have hcalled := goes_execCommand (h := h) (s := s₂) n e argv
  rw [hassign] at hassigned
  rw [hcall] at hcalled
  have hsame : SameNames s₁.state s₃.state :=
    (Reach.sameNames hassigned).trans (Reach.sameNames hcalled)
  have hrestored : (Interp.restorePrefixAssignments (Interp.savePrefixAssignmentTargets s₁ e.env)
      argv s₃).state = restoreEntries ((Interp.savePrefixAssignmentTargets s₁ e.env).filter
        fun e => !(Interp.promotedPrefixNames argv).contains e.1) s₃.state := rfl
  rw [hrestored, savePrefixAssignmentTargets_eq]
  by_cases hmem : name ∈ e.env.map (fun a => assignmentBase a.name)
  · rw [← hnot.words]
    apply restoreEntries_get
    · intro save hsave hname
      have hin := (List.mem_filter.mp hsave).1
      rcases List.mem_map.mp hin with ⟨a, -, rfl⟩
      rw [← hname]
    · rcases List.mem_map.mp hmem with ⟨a, ha, rfl⟩
      refine List.mem_map.mpr ⟨(assignmentBase a.name, s₁.state.env.get (assignmentBase a.name)),
        List.mem_filter.mpr ⟨List.mem_map_of_mem ha, by simpa using hpromoted⟩, rfl⟩
    · intro hprior
      have hro : s₁.state.isVarReadonly name = false := by
        simp [ShellState.isVarReadonly, hprior]
      constructor
      · have hro₂ := hlist.writable hro
        unfold ShellState.isVarReadonly at hro₂ ⊢
        rwa [hnot.call]
      · apply hsame.below_eq_none
        rw [ShellEnv.get_eq] at hprior
        exact (Option.or_eq_none_iff.mp hprior).2
  · rw [restoreEntries_get_of_notMem, hnot.call, hlist.entry hmem, hnot.words]
    intro hin
    rcases List.mem_map.mp hin with ⟨save, hsave, rfl⟩
    rcases List.mem_map.mp (List.mem_filter.mp hsave).1 with ⟨a, ha, rfl⟩
    exact hmem (List.mem_map_of_mem (f := fun a : Assignment => assignmentBase a.name) ha)

/-- The command `name=value true`. -/
def assignedTrue (name value : String) : Exec :=
  ⟨[.ofText "true"], [⟨name, some (.ofText value)⟩], []⟩

/-- `x=2 true` where `x` is `1`. -/
theorem prefix_assignments_undone_of_scalar :
    ∃ t, Interp.executeExec (.ofScript "" []) (Interp.interp (.ofScript "" []) 3)
        (assignedTrue "x" "2") (.bareWith "x" (.ofScalar "1")) = .ok t ∧
      t.state.env.get "x" = some (.ofScalar "1") := by
  have hexp : Interp.expandAssignmentValue (.ofScript "" []) (Interp.interp (.ofScript "" []) 3)
      (some (.ofText "2")) (.bareWith "x" (.ofScalar "1")) =
        .ok ("2", .bareWith "x" (.ofScalar "1")) := rfl
  have hscalar : Interp.resolveScalarAssignmentValue (.ofScript "" []) "x" "2" false
      ((Runtime.bareWith "x" (.ofScalar "1")).record (.assign "x")) =
        .ok ("2", (Runtime.bareWith "x" (.ofScalar "1")).record (.assign "x")) := rfl
  have hundone := (prefix_assignments_undone (.ofScript "" []) 3 (assignedTrue "x" "2")
    (.bareWith "x" (.ofScalar "1")) (by decide)).2 ["true"] (.bareWith "x" (.ofScalar "1")) _ _
    rfl rfl rfl ⟨fun st target hwrite hfollows _ => by
      rcases hwrite with ⟨-, -, value, s', final, s'', hvalue, -, hfinal, rfl⟩
      cases hexp.symm.trans hvalue
      cases hscalar.symm.trans hfinal
      exact absurd hfollows (by decide), fun _ _ => trivial⟩
  rcases hundone with ⟨t, hrun, hget⟩
  refine ⟨t, hrun, (hget "x" (by decide) ⟨rfl, ⟨fun value s' hvalue => ?_, fun _ _ => trivial⟩, ?_⟩).trans
    (by decide)⟩
  · cases hexp.symm.trans hvalue
    refine ⟨rfl, fun final s'' hfinal => ?_⟩
    cases hscalar.symm.trans hfinal
    rfl
  · decide +kernel

/-- A shell in which `r` is a nameref to `x`, which is `old`. -/
def namerefShell : Runtime Unit :=
  let s := Runtime.bareWith "x" (.ofScalar "old")
  let toX := { ShellVar.ofScalar "x" with nameref := true }
  { s with state := s.state.setEntry "r" toX }

/-- `r=1 true` leaves `x` at `1`, which the command itself has not assigned. -/
theorem nameref_prefix_assignment_stays :
    ∃ t, Interp.executeExec (.ofScript "" []) (Interp.interp (.ofScript "" []) 3)
        (assignedTrue "r" "1") namerefShell = .ok t ∧
      t.state.env.get "x" = some (.ofScalar "1") ∧
      namerefShell.state.env.get "x" = some (.ofScalar "old") ∧
      ∃ s₂ s₃, Interp.executeAssignments (.ofScript "" []) (Interp.interp (.ofScript "" []) 3)
          (assignedTrue "r" "1").env namerefShell = .ok s₂ ∧
        execCommand (.ofScript "" []) (Interp.interp (.ofScript "" []) 3) (assignedTrue "r" "1")
          ["true"] s₂ = .ok s₃ ∧
        s₃.state.env.get "x" = s₂.state.env.get "x" :=
  ⟨_, rfl, rfl, rfl, _, _, rfl, rfl, rfl⟩

end Wasmsh

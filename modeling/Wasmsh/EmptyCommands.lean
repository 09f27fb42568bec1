import Wasmsh.PrefixAssignments
import Wasmsh.ShellHost

/-!
# Commands that expand to no words

`execute_exec` looks whether there are words after `expand_words_argv`, and pathname
expansion comes later: under `nullglob` it may leave none.  What a command does whose words
vanish, at either place, next to the command that only has its assignments and redirections.
-/

namespace Wasmsh

open Hir

variable {W P : Type}

/-! ## 1. Where the words vanish -/

section

variable (h : Host W P) (r : Recs W P) (e : Exec) (s s₁ : Runtime W) (late : Bool)

/-- The words of the command expand without an error to none: before the check of
    `execute_exec`, or (`late`) after it. -/
def LeavesNoWords : Prop :=
  ∃ words s₀ t, Interp.resolveCommandSubst h r e.argv s = .ok (words, s₀) ∧
    s₀.enterChecked.applyOps (h.expandArgv words s₀.state s₀.world).1 = .ok t ∧
    (t.checkErrors h).1 = false ∧
    (h.expandArgv words s₀.state s₀.world).2 = (if late then some [] else none) ∧
    s₁ = Runtime.leaveChecked s₀ (t.checkErrors h).2

/-- The redirections of a command without words. -/
def redirectOnly (redirs : List Redirection) (s : Runtime W) : Run W (Runtime W) :=
  if redirs.isEmpty then .ok s else Interp.executeCommandBody h r (.redirectOnly redirs) s

/-- What a command does that has the assignments and the redirections only. -/
def assignmentsOnly (s : Runtime W) : Run W (Runtime W) := do
  let s ← Interp.executeAssignments h r e.env s
  redirectOnly h r e.redirections s

/-- The command returns, with the variables and the world that the assignments and the
    redirections alone would leave. -/
def Harmless : Prop :=
  ∃ t u, Interp.executeExec h r e s = .ok t ∧ assignmentsOnly h r e s₁ = .ok u ∧
    (∀ name, t.state.env.get name = u.state.env.get name) ∧ t.world = u.world

/-- The redirections in force for no command, and the line of `set -x`. -/
def redirectNothing (redirs : List Redirection) (s : Runtime W) : Run W (Runtime W) :=
  Interp.withRedirections h r redirs (fun s => .ok (Interp.traceCommand h [] s)) s

/-- The variable is as the assignments and the redirections alone would leave it (`alone`)
    although the assigned ones are put back: it had this entry before, unless it had none and
    cannot be unset. -/
def StaysAssigned (before after alone : ShellState) (name : String) : Prop :=
  if before.env.get name = none ∧ after.isVarReadonly name = true then
    after.env.get name = alone.env.get name
  else alone.env.get name = before.env.get name

/-- The words vanish late, without `expand_aliases`; the redirections do for no command what
    they do alone; and the variables that are put back have their entries of before. -/
def AssignmentsKept : Prop :=
  ∃ s₂ v u, Interp.executeAssignments h r e.env s₁ = .ok s₂ ∧
    s₂.state.flag "SHOPT_expand_aliases" = false ∧
    redirectNothing h r e.redirections s₂ = .ok v ∧
    redirectOnly h r e.redirections s₂ = .ok u ∧ v.world = u.world ∧
    ∀ name, if name ∈ e.env.map (assignmentBase ·.name) then
      StaysAssigned s₁.state v.state u.state name
    else v.state.env.get name = u.state.env.get name

/-- The assignments and the redirections alone do nothing either. -/
def NothingToDo : Prop :=
  ∃ u, assignmentsOnly h r e s₁ = .ok u ∧
    (∀ name, u.state.env.get name = s₁.state.env.get name) ∧ u.world = s₁.world

end

variable {h : Host W P} {e : Exec} {s s₁ : Runtime W} {late : Bool}

theorem execArgv_of_no_words {r : Recs W P} (hwords : LeavesNoWords h r e s s₁ late) :
    execArgv h r e s = .ok (if late then some [] else none, s₁) := by
  rcases hwords with ⟨words, s₀, t, hsubst, hops, hcheck, hnone, rfl⟩
  unfold execArgv Interp.expandChecked
  rw [hsubst]
  dsimp only [bind, Except.bind]
  rw [hops]
  dsimp only [pure, Except.pure]
  rw [hcheck, hnone]
  rfl

/-! ## 2. No words to run -/

/-- The parts of a runtime that this file is about. -/
def SameOutside (s t : Runtime W) : Prop := s.state = t.state ∧ s.world = t.world

/-- Running no words only counts a step. -/
theorem executeArgvCommand_nil (n : Nat) (s : Runtime W) :
    ∃ t, (Interp.interp h (n + 1)).executeArgvCommand [] s = .ok t ∧ SameOutside t s := by
  refine ⟨s.checkResourceLimits.2, ?_, ?_⟩
  · show Interp.executeArgvCommand h (Interp.interp h n) [] s = _
    unfold Interp.executeArgvCommand
    cases s.checkResourceLimits with
    | mk exhausted t => cases exhausted <;> rfl
  · unfold Runtime.checkResourceLimits
    split
    · exact ⟨rfl, rfl⟩
    · dsimp only
      split <;> exact ⟨rfl, rfl⟩

/-- Bodies that do the same outside do so under redirections. -/
theorem withRedirections_sameOutside {r : Recs W P} (redirs : List Redirection)
    {f g : Runtime W → Run W (Runtime W)}
    (hbody : ∀ s, ∃ t u, f s = .ok t ∧ g s = .ok u ∧ SameOutside t u) (s : Runtime W) :
    (∃ t u, Interp.withRedirections h r redirs f s = .ok t ∧
      Interp.withRedirections h r redirs g s = .ok u ∧ SameOutside t u) ∨
    ∃ t u, Interp.withRedirections h r redirs f s = .error t ∧
      Interp.withRedirections h r redirs g s = .error u := by
  unfold Interp.withRedirections
  split
  · exact Or.inl (hbody s)
  · cases Interp.resolveRedirections h r redirs s with
    | error t => exact Or.inr ⟨t, t, rfl, rfl⟩
    | ok resolved =>
      dsimp only [bind, Except.bind]
      cases resolved.2.applyEffect h false
          (h.prepareExecIo resolved.1 resolved.2.state resolved.2.world).1 with
      | error t => exact Or.inr ⟨t, t, rfl, rfl⟩
      | ok t =>
        dsimp only
        split
        · rcases hbody t with ⟨t₁, u₁, ht, hu, hstate, hworld⟩
          rw [ht, hu]
          refine Or.inl ⟨_, _, rfl, rfl, hstate, ?_⟩
          dsimp only
          rw [hworld]
        · exact Or.inl ⟨t, t, rfl, rfl, rfl, rfl⟩

/-- What `execute_exec` does once its words have vanished late. -/
theorem execCommand_nil {n : Nat} {s₂ : Runtime W} :
    (s₂.state.flag "SHOPT_expand_aliases" = true ∧
      execCommand h (Interp.interp h (n + 1)) e [] s₂ = .error s₂) ∨
    s₂.state.flag "SHOPT_expand_aliases" = false ∧
      execCommand h (Interp.interp h (n + 1)) e [] s₂ =
        Interp.withRedirections h (Interp.interp h (n + 1)) e.redirections
          (fun s => (Interp.interp h (n + 1)).executeArgvCommand []
            (Interp.traceCommand h [] s)) s₂ := by
  unfold execCommand Interp.aliasPanics Interp.aliasText
  cases s₂.state.flag "SHOPT_expand_aliases" with
  | true => exact Or.inl ⟨rfl, rfl⟩
  | false => exact Or.inr ⟨rfl, rfl⟩

/-- How such a command ends. -/
theorem executeExec_late {n : Nat} (hwords : LeavesNoWords h (Interp.interp h (n + 1)) e s s₁ true)
    {s₂ : Runtime W} (hassign : Interp.executeAssignments h (Interp.interp h (n + 1)) e.env s₁ =
      .ok s₂) :
    Interp.executeExec h (Interp.interp h (n + 1)) e s =
      (execCommand h (Interp.interp h (n + 1)) e [] s₂).map
        (Interp.restorePrefixAssignments (Interp.savePrefixAssignmentTargets s₁ e.env) []) := by
  rw [executeExec_eq, execArgv_of_no_words hwords]
  dsimp only [bind, Except.bind]
  rw [if_pos rfl]
  dsimp only
  rw [hassign]
  dsimp only
  cases execCommand h (Interp.interp h (n + 1)) e [] s₂ <;> rfl

/-- A readonly variable that was unset before keeps its entry. -/
theorem restoreEntries_get_of_readonly {saves : List (String × Option ShellVar)}
    {name : String} (hnone : ∀ save ∈ saves, save.1 = name → save.2 = none) {st : ShellState}
    (hro : st.isVarReadonly name = true) :
    (restoreEntries saves st).env.get name = st.env.get name := by
  induction saves generalizing st with
  | nil => rfl
  | cons save saves ih =>
    obtain ⟨other, value⟩ := save
    have hrest : ∀ save ∈ saves, save.1 = name → save.2 = none :=
      fun save hsave => hnone save (List.mem_cons_of_mem _ hsave)
    have hhead := hnone (other, value) (List.mem_cons_self ..)
    have hstep : ∀ st' : ShellState, st'.env.get name = st.env.get name →
        (restoreEntries saves st').env.get name = st.env.get name := by
      intro st' hsame
      refine (ih hrest ?_).trans hsame
      rwa [ShellState.isVarReadonly, hsame]
    cases value with
    | some v =>
      refine hstep (st.setEntry other v) ?_
      have hname : other ≠ name := by
        intro hname
        cases hhead hname
      simp [hname]
    | none =>
      refine hstep (st.unsetVar other) ?_
      rw [ShellState.get_unsetVar, if_neg]
      rintro ⟨rfl, hro'⟩
      rw [hro] at hro'
      cases hro'

/-- The variables after the assigned ones are put back are those of `alone` exactly if each
    that is put back stays, and the others agree. -/
theorem restorePrefixAssignments_get_iff {s₁ v : Runtime W} (hnames : SameNames s₁.state v.state)
    (env : List Assignment) (alone : ShellState) (name : String) :
    (Interp.restorePrefixAssignments (Interp.savePrefixAssignmentTargets s₁ env) [] v
      ).state.env.get name = alone.env.get name ↔
      if name ∈ env.map (assignmentBase ·.name) then
        StaysAssigned s₁.state v.state alone name
      else v.state.env.get name = alone.env.get name := by
  have hrestored : (Interp.restorePrefixAssignments (Interp.savePrefixAssignmentTargets s₁ env)
      [] v).state = restoreEntries (Interp.savePrefixAssignmentTargets s₁ env) v.state := by
    have hall : (Interp.savePrefixAssignmentTargets s₁ env).filter
        (fun save => !(Interp.promotedPrefixNames []).contains save.1) =
          Interp.savePrefixAssignmentTargets s₁ env :=
      List.filter_eq_self.mpr fun _ _ => rfl
    change restoreEntries (List.filter _ _) _ = _
    rw [hall]
  rw [hrestored, savePrefixAssignmentTargets_eq]
  have hsaved : ∀ save ∈ env.map fun a =>
      (assignmentBase a.name, s₁.state.env.get (assignmentBase a.name)),
      save.1 = name → save.2 = s₁.state.env.get name := by
    rintro save hsave rfl
    obtain ⟨b, -, rfl⟩ := List.mem_map.mp hsave
    rfl
  have hfst : (env.map fun a =>
      (assignmentBase a.name, s₁.state.env.get (assignmentBase a.name))).map Prod.fst =
        env.map (assignmentBase ·.name) := by
    rw [List.map_map]
    rfl
  split
  · next hmem =>
    unfold StaysAssigned
    split
    · next hlost =>
      rw [restoreEntries_get_of_readonly (fun save hsave hname =>
        (hsaved save hsave hname).trans hlost.1) hlost.2]
    · next hlost =>
      rw [restoreEntries_get hsaved (hfst ▸ hmem) fun hprior => ⟨?_, ?_⟩]
      · exact eq_comm
      · cases hro : v.state.isVarReadonly name with
        | false => rfl
        | true => exact absurd ⟨hprior, hro⟩ hlost
      · apply hnames.below_eq_none
        rw [ShellEnv.get_eq] at hprior
        exact (Option.or_eq_none_iff.mp hprior).2
  · next hmem => rw [restoreEntries_get_of_notMem (by rwa [hfst])]

/-- The names of the variables in the scopes below stay through a late command. -/
theorem sameNames_redirectNothing {n : Nat} {s₂ v : Runtime W}
    (hassign : Interp.executeAssignments h (Interp.interp h n) e.env s₁ = .ok s₂)
    (hredirect : redirectNothing h (Interp.interp h n) e.redirections s₂ = .ok v) :
    SameNames s₁.state v.state := by
  have walks := Interp.walks_interp h n
  have hassigned : Goes h id s₁ (Interp.executeAssignments h (Interp.interp h n) e.env s₁) :=
    Interp.goes_executeAssignments walks s₁ e.env
  have hredirected : Goes h id s₂ (redirectNothing h (Interp.interp h n) e.redirections s₂) := by
    apply Interp.goes_withRedirections walks
    intro s
    exact Interp.reach_traceCommand s []
  rw [hassign] at hassigned
  rw [hredirect] at hredirected
  exact (Reach.sameNames hassigned).trans (Reach.sameNames hredirected)

/-- Without redirections and the lines of `set -x` the assignments decide. -/
theorem assignmentsKept_iff_of_nil {r : Recs W P} {s₂ : Runtime W} (hredirs : e.redirections = [])
    (hassign : Interp.executeAssignments h r e.env s₁ = .ok s₂)
    (haliases : s₂.state.flag "SHOPT_expand_aliases" = false)
    (htrace : s₂.state.flag "SHOPT_x" = false) :
    AssignmentsKept h r e s₁ ↔
      ∀ name ∈ e.env.map (assignmentBase ·.name), StaysAssigned s₁.state s₂.state s₂.state name := by
  have hnothing : redirectNothing h r e.redirections s₂ = .ok s₂ := by
    simp [redirectNothing, Interp.withRedirections, hredirs, Interp.traceCommand, htrace]
  have honly : redirectOnly h r e.redirections s₂ = .ok s₂ := by
    simp [redirectOnly, hredirs]
  constructor
  · rintro ⟨s', v, u, hs', -, hv, hu, -, hstay⟩ name hmem
    obtain rfl := Except.ok.inj (hassign.symm.trans hs')
    obtain rfl := Except.ok.inj (hnothing.symm.trans hv)
    obtain rfl := Except.ok.inj (honly.symm.trans hu)
    have hname := hstay name
    rwa [if_pos hmem] at hname
  · intro hstay
    refine ⟨s₂, s₂, s₂, hassign, haliases, hnothing, honly, rfl, fun name => ?_⟩
    split
    · next hmem => exact hstay name hmem
    · rfl

/-- The command `"$@"`. -/
def allArguments : Exec := ⟨[⟨[.doubleQuoted [.parameter "@".toList]]⟩], [], []⟩

/-- The command `x*`. -/
def nothingFound : Exec := ⟨[⟨[.literal "x*".toList]⟩], [], []⟩

/-- A shell under `nullglob`. -/
def nullglobOnly : Runtime Unit :=
  { Runtime.bare with state := Runtime.bare.state.setEntry "SHOPT_nullglob" (.ofScalar "1") }

/-- A shell under `nullglob`, with aliases. -/
def nullglobRuntime : Runtime Unit :=
  { Runtime.bare with
    state := (Runtime.bare.state.setEntry "SHOPT_nullglob" (.ofScalar "1")).setEntry
      "SHOPT_expand_aliases" (.ofScalar "1") }

end Wasmsh

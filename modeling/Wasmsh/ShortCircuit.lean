import Wasmsh.ArithReads
import Wasmsh.ArithValues

/-!
# Short-circuit evaluation

`parse_logical_and`, `parse_logical_or` and `parse_ternary` compute while they read, and read the
part whose value is not used like any other.  So that part is as good as skipped where each of
its operations leaves the state as it is, and with one operation only there.
-/

namespace Wasmsh.Arith

open Chains

/-- An expression over the values of its literals and the texts of its names. -/
abbrev TokenExpr := Expr Int64 (List Char)

/-- The evaluation of all parts. -/
def Expr.exec (e : TokenExpr) (st : ArithState) : Int64 × ArithState := e.run id id st

/-- A text with the tokens of an expression, from a state that the expansions in it lead to. -/
def Writes (x : Expander) (s : ShellState) (text : List Char) (e : TokenExpr)
    (st : ArithState) : Prop :=
  arithTokenize x (trim text) (some s) = (e.tokens id id, st)

/-- Short-circuit evaluation leaves out a part of the expression; the second expression is
    what it evaluates. -/
inductive Skips (st : ArithState) : TokenExpr → TokenExpr → Prop where
  | logicalAnd {a b : TokenExpr} (h : (a.exec st).1 = 0) : Skips st (.binary .ampAmp a b) a
  | logicalOr {a b : TokenExpr} (h : (a.exec st).1 ≠ 0) : Skips st (.binary .pipePipe a b) a
  | elseVal {c a b : TokenExpr} (h : (c.exec st).1 ≠ 0) : Skips st (.cond c a b) (.comma c a)
  | thenVal {c a b : TokenExpr} (h : (c.exec st).1 = 0) : Skips st (.cond c a b) (.comma c b)

/-- How many operations of an expression may change the state: assignments, steps, divisions
    and reads of `RANDOM`. -/
def Expr.operations : TokenExpr → Nat
  | .number _ => 0
  | .name n => if String.ofList n = "RANDOM" then 1 else 0
  | .pre _ _ | .post _ _ => 1
  | .paren e | .unary _ e => e.operations
  | .pow a b | .comma a b => a.operations + b.operations
  | .binary op a b =>
    a.operations + b.operations + if op = .slash ∨ op = .percent then 1 else 0
  | .cond c a b => c.operations + a.operations + b.operations
  | .assign _ _ e => e.operations + 1

/-- Each operation of an expression leaves the state as it is: an assignment is refused or
    assigns what the variable holds, and nothing is divided by zero. -/
def Expr.Quiet (st : ArithState) : TokenExpr → Prop
  | .number _ => True
  | .name n => (varGet n st).2 = st
  | .pre op n | .post n op => varSet n (op.apply (varGet n st).1) (varGet n st).2 = st
  | .paren e | .unary _ e => e.Quiet st
  | .pow a b | .comma a b => a.Quiet st ∧ b.Quiet st
  | .binary op a b => (a.Quiet st ∧ b.Quiet st) ∧
    (op = .slash ∨ op = .percent → (b.exec st).1 = 0 → setArithError divisionByZero st = st)
  | .cond c a b => (c.Quiet st ∧ a.Quiet st) ∧ b.Quiet st
  | .assign n op e => e.Quiet st ∧
    varSet n (op.apply (assignRead op.token n st).1 (e.exec st).1) (assignRead op.token n st).2 = st

instance Expr.decidableQuiet (st : ArithState) : (e : TokenExpr) → Decidable (e.Quiet st)
  | .number _ => isTrue trivial
  | .name n => inferInstanceAs (Decidable ((varGet n st).2 = st))
  | .pre op n | .post n op =>
    inferInstanceAs (Decidable (varSet n (op.apply (varGet n st).1) (varGet n st).2 = st))
  | .paren e | .unary _ e => decidableQuiet st e
  | .pow a b | .comma a b =>
    have := decidableQuiet st a
    have := decidableQuiet st b
    inferInstanceAs (Decidable (a.Quiet st ∧ b.Quiet st))
  | .binary op a b =>
    have := decidableQuiet st a
    have := decidableQuiet st b
    inferInstanceAs (Decidable ((a.Quiet st ∧ b.Quiet st) ∧ (op = .slash ∨ op = .percent →
      (b.exec st).1 = 0 → setArithError divisionByZero st = st)))
  | .cond c a b =>
    have := decidableQuiet st c
    have := decidableQuiet st a
    have := decidableQuiet st b
    inferInstanceAs (Decidable ((c.Quiet st ∧ a.Quiet st) ∧ b.Quiet st))
  | .assign n op e =>
    have := decidableQuiet st e
    inferInstanceAs (Decidable (e.Quiet st ∧ varSet n
      (op.apply (assignRead op.token n st).1 (e.exec st).1) (assignRead op.token n st).2 = st))

/-- The part that is left out, and the state in which it is met. -/
def Expr.unused (st : ArithState) : TokenExpr → TokenExpr × ArithState
  | .binary _ a b => (b, (a.exec st).2)
  | .cond c a b =>
    let cond := c.exec st
    if cond.1 ≠ 0 then (b, (a.exec cond.2).2) else (a, cond.2)
  | e => (e, st)

/-- The operations of the part that is left out, and of a branch that comes after it. -/
def Expr.unusedOperations (st : ArithState) : TokenExpr → Nat
  | .cond c a b => if (c.exec st).1 ≠ 0 then b.operations else a.operations + b.operations
  | e => (e.unused st).1.operations

/-! ## 1. What remains is no larger -/

theorem levelsIn_any {own : Slot} (n : Nat) (hown : own.Valid) :
    levelsIn .any own n = 2 - own.guards + n := if_neg (not_lt.mpr hown.rank_le)

theorem levelsIn_any_le {own place : Slot} (n : Nat) (hplace : place.guards = 1)
    (hown : own.Valid) : levelsIn .any own n ≤ 1 + levelsIn place own n := by
  rw [levelsIn_any n hown, levelsIn, hplace]
  by_cases hrank : place.rank < own.rank
  · rw [if_pos hrank]
    omega
  · rw [if_neg hrank]
    omega

theorem Skips.depth_le {st : ArithState} {e kept : TokenExpr} (h : Skips st e kept) :
    kept.depth ≤ e.depth := by
  have hbinary : ∀ (op : BinOp) (a b : TokenExpr), a.depth ≤ (Expr.binary op a b).depth := by
    intro op a b
    have hop : (Expr.binary op a b).slot.Valid := Expr.slot_valid _
    calc a.depth ≤ 1 + levelsIn (.chain (op.level + 1)) a.slot a.levels :=
          levelsIn_any_le a.levels rfl a.slot_valid
      _ ≤ 1 + (Expr.binary op a b).levels := Nat.add_le_add_left (le_max_left _ _) 1
      _ = (Expr.binary op a b).depth := (levelsIn_any _ hop).symm
  have hcomma : ∀ (c a b d : TokenExpr), levelsIn .assignment d.slot d.levels ≤
      max (levelsIn .assignment a.slot a.levels) (levelsIn .assignment b.slot b.levels) →
      (Expr.comma c d).depth ≤ (Expr.cond c a b).depth := by
    intro c a b d hd
    have hany : Slot.any.Valid := trivial
    have hassignment : Slot.assignment.Valid := trivial
    have hc : levelsIn .any c.slot c.levels ≤ 1 + levelsIn (.chain 10) c.slot c.levels :=
      levelsIn_any_le c.levels rfl c.slot_valid
    change levelsIn .any .any (max _ _) ≤ levelsIn .any .assignment (1 + max _ _)
    rw [levelsIn_any _ hany, levelsIn_any _ hassignment]
    simp only [Slot.guards]
    omega
  cases h with
  | logicalAnd => exact hbinary _ _ _
  | logicalOr => exact hbinary _ _ _
  | elseVal => exact hcomma _ _ _ _ (le_max_left _ _)
  | thenVal => exact hcomma _ _ _ _ (le_max_right _ _)

theorem Skips.closed {st : ArithState} {e kept : TokenExpr} (h : Skips st e kept)
    (hclosed : e.All Expr.ClosedMiddle) : kept.All Expr.ClosedMiddle := by
  cases h with
  | logicalAnd => exact hclosed.2.1
  | logicalOr => exact hclosed.2.1
  | elseVal => exact ⟨trivial, hclosed.2.1, hclosed.2.2.1⟩
  | thenVal => exact ⟨trivial, hclosed.2.1, hclosed.2.2.2⟩

/-! ## 2. What is left out -/

theorem Expr.Quiet.exec_state {e : TokenExpr} {st : ArithState} (h : e.Quiet st) :
    (e.exec st).2 = st := by
  induction e with
  | number => rfl
  | name | pre | post => exact h
  | paren e ih => exact ih h
  | unary op e ih => exact ih h
  | pow a b iha ihb | comma a b iha ihb =>
    change (b.exec (a.exec st).2).2 = st
    rw [iha h.1, ihb h.2]
  | binary op a b iha ihb =>
    have hdivision : ∀ f, op = .slash ∨ op = .percent →
        (divisionOp f (a.exec st).1 (b.exec st).1 st).2 = st := by
      intro f hop
      unfold divisionOp
      split
      · next hzero => exact h.2 hop hzero
      · rfl
    change (op.apply (a.exec st).1 (b.exec (a.exec st).2).1 (b.exec (a.exec st).2).2).2 = st
    rw [iha h.1.1, ihb h.1.2]
    cases op with
    | slash => exact hdivision _ (Or.inl rfl)
    | percent => exact hdivision _ (Or.inr rfl)
    | _ => rfl
  | cond c a b ihc iha ihb =>
    change (b.exec (a.exec (c.exec st).2).2).2 = st
    rw [ihc h.1.1, iha h.1.2, ihb h.2]
  | assign n op e ih =>
    change varSet n (op.apply (assignRead op.token n (e.exec st).2).1 (e.exec st).1)
      (assignRead op.token n (e.exec st).2).2 = st
    rw [ih h.1]
    exact h.2

theorem Expr.quiet_of_no_operations {e : TokenExpr} (h : e.operations = 0) (st : ArithState) :
    e.Quiet st := by
  induction e with
  | number => trivial
  | name n =>
    have hname : String.ofList n ≠ "RANDOM" := fun hname => by
      rw [operations, if_pos hname] at h
      cases h
    cases st with
    | none => rfl
    | some s =>
      change some (s.readVar (String.ofList n)).2 = some s
      rw [ShellState.readVar_state, if_neg hname]
  | pre | post | assign => cases h
  | paren e ih => exact ih h
  | unary op e ih => exact ih h
  | pow a b iha ihb | comma a b iha ihb =>
    rcases Nat.add_eq_zero_iff.mp h with ⟨ha, hb⟩
    exact ⟨iha ha, ihb hb⟩
  | binary op a b iha ihb =>
    rcases Nat.add_eq_zero_iff.mp h with ⟨hab, hop⟩
    rcases Nat.add_eq_zero_iff.mp hab with ⟨ha, hb⟩
    refine ⟨⟨iha ha, ihb hb⟩, fun hdivision => ?_⟩
    rw [if_pos hdivision] at hop
    cases hop
  | cond c a b ihc iha ihb =>
    rcases Nat.add_eq_zero_iff.mp h with ⟨hca, hb⟩
    rcases Nat.add_eq_zero_iff.mp hca with ⟨hc, ha⟩
    exact ⟨⟨ihc hc, iha ha⟩, ihb hb⟩

/-- Of two expressions, one after the other, that change nothing and have one operation
    together, each changes nothing. -/
theorem Expr.exec_pair {a b : TokenExpr} {st : ArithState} (hsum : a.operations + b.operations ≤ 1)
    (h : (b.exec (a.exec st).2).2 = st) : (a.exec st).2 = st ∧ (b.exec st).2 = st := by
  by_cases ha : a.operations = 0
  · have hsame := (quiet_of_no_operations ha st).exec_state
    rw [hsame] at h
    exact ⟨hsame, h⟩
  · have hb : b.operations = 0 := by omega
    rw [(quiet_of_no_operations hb _).exec_state] at h
    exact ⟨h, (quiet_of_no_operations hb st).exec_state⟩

theorem Expr.quiet_of_exec {e : TokenExpr} {st : ArithState} (hone : e.operations ≤ 1)
    (h : (e.exec st).2 = st) : e.Quiet st := by
  induction e with
  | number => trivial
  | name | pre | post => exact h
  | paren e ih => exact ih hone h
  | unary op e ih => exact ih hone h
  | pow a b iha ihb | comma a b iha ihb =>
    rcases exec_pair hone h with ⟨ha, hb⟩
    rw [operations] at hone
    exact ⟨iha (by omega) ha, ihb (by omega) hb⟩
  | binary op a b iha ihb =>
    have hsum : a.operations + b.operations + (if op = .slash ∨ op = .percent then 1 else 0) ≤ 1 :=
      hone
    have hafter : (op.apply (a.exec st).1 (b.exec (a.exec st).2).1 (b.exec (a.exec st).2).2).2 =
        st := h
    by_cases hop : op = .slash ∨ op = .percent
    · -- The division is the one operation.
      rw [if_pos hop] at hsum
      have ha : a.Quiet st := quiet_of_no_operations (by omega) st
      have hb : b.Quiet st := quiet_of_no_operations (by omega) st
      rw [ha.exec_state, hb.exec_state] at hafter
      refine ⟨⟨ha, hb⟩, fun _ hzero => ?_⟩
      have hdivision : ∀ f, (divisionOp f (a.exec st).1 (b.exec st).1 st).2 =
          setArithError divisionByZero st := fun f => congrArg Prod.snd (if_pos hzero)
      rcases hop with rfl | rfl
      · exact (hdivision _).symm.trans hafter
      · exact (hdivision _).symm.trans hafter
    · rw [if_neg hop] at hsum
      have hkeeps : ∀ v w st, (op.apply v w st).2 = st := by
        intro v w st
        cases op with
        | slash => exact absurd (Or.inl rfl) hop
        | percent => exact absurd (Or.inr rfl) hop
        | _ => rfl
      rw [hkeeps] at hafter
      rcases exec_pair hsum hafter with ⟨ha, hb⟩
      exact ⟨⟨iha (by omega) ha, ihb (by omega) hb⟩, fun hdivision => absurd hdivision hop⟩
  | cond c a b ihc iha ihb =>
    have hsum : c.operations + a.operations + b.operations ≤ 1 := hone
    have hca : (Expr.comma c a).operations + b.operations ≤ 1 := hsum
    rcases exec_pair hca h with ⟨hca, hb⟩
    rcases exec_pair (by omega : c.operations + a.operations ≤ 1) hca with ⟨hc, ha⟩
    exact ⟨⟨ihc (by omega) hc, iha (by omega) ha⟩, ihb (by omega) hb⟩
  | assign n op e ih =>
    have hnone : e.operations = 0 := Nat.le_zero.mp (Nat.le_of_succ_le_succ hone)
    have he : e.Quiet st := quiet_of_no_operations hnone st
    have hwrite : varSet n (op.apply (assignRead op.token n (e.exec st).2).1 (e.exec st).1)
      (assignRead op.token n (e.exec st).2).2 = st := h
    rw [he.exec_state] at hwrite
    exact ⟨he, hwrite⟩

/-- The part that is left out can be left out where it is quiet. -/
theorem Skips.exec_eq {st : ArithState} {e kept : TokenExpr} (h : Skips st e kept)
    (hquiet : (e.unused st).1.Quiet (e.unused st).2) : (e.exec st).2 = (kept.exec st).2 := by
  cases h with
  | logicalAnd => exact hquiet.exec_state
  | logicalOr => exact hquiet.exec_state
  | elseVal hcond =>
    rw [Expr.unused, if_pos hcond] at hquiet
    exact hquiet.exec_state
  | @thenVal c a b hcond =>
    rw [Expr.unused, if_neg (not_not.mpr hcond)] at hquiet
    exact congrArg (fun st => (b.exec st).2) hquiet.exec_state

theorem Skips.quiet {st : ArithState} {e kept : TokenExpr} (h : Skips st e kept)
    (hone : e.unusedOperations st ≤ 1) (heq : (e.exec st).2 = (kept.exec st).2) :
    (e.unused st).1.Quiet (e.unused st).2 := by
  cases h with
  | logicalAnd => exact Expr.quiet_of_exec hone heq
  | logicalOr => exact Expr.quiet_of_exec hone heq
  | elseVal hcond =>
    rw [Expr.unusedOperations, if_pos hcond] at hone
    rw [Expr.unused, if_pos hcond]
    exact Expr.quiet_of_exec hone heq
  | @thenVal c a b hcond =>
    rw [Expr.unusedOperations, if_neg (not_not.mpr hcond)] at hone
    rw [Expr.unused, if_neg (not_not.mpr hcond)]
    dsimp only
    by_cases ha : a.operations = 0
    · exact Expr.quiet_of_no_operations ha _
    · have hb : b.operations = 0 := by omega
      have hsame := fun st => (Expr.quiet_of_no_operations hb st).exec_state
      have heq : (b.exec (a.exec (c.exec st).2).2).2 = (b.exec (c.exec st).2).2 := heq
      rw [hsame, hsame] at heq
      exact Expr.quiet_of_exec (by omega) heq

/-- **Short-circuit evaluation.**  The part whose value is not used leaves the state as if it had
    not been written when each of its operations leaves the state as it is; and only then, if it
    has but one. -/
theorem skipped_iff {x : Expander} {s : ShellState} {text keptText : List Char} {st : ArithState}
    {e kept : TokenExpr} (htext : Writes x s text e st) (hkept : Writes x s keptText kept st)
    (hskips : Skips st e kept) (hclosed : e.All Expr.ClosedMiddle)
    (hdepth : e.depth ≤ maxArithDepth) :
    ((e.unused st).1.Quiet (e.unused st).2 →
      (evalArithmetic x text s).2 = (evalArithmetic x keptText s).2) ∧
    (e.unusedOperations st ≤ 1 →
      ((evalArithmetic x text s).2 = (evalArithmetic x keptText s).2 ↔
        (e.unused st).1.Quiet (e.unused st).2)) := by
  rw [evalArithmetic_run id id htext hclosed hdepth,
    evalArithmetic_run id id hkept (hskips.closed hclosed) (hskips.depth_le.trans hdepth)]
  exact ⟨hskips.exec_eq, fun hone => ⟨hskips.quiet hone, hskips.exec_eq⟩⟩

/-- In `0 && (y = 6 / z)` with `y` read-only and `z` two, and in `0 && RANDOM`. -/
theorem skipped_operations :
    let s := (ShellState.new.setEntry "z" (.ofScalar "2")).setEntry "y"
      { ShellVar.ofScalar "7" with readonly := true }
    (evalArithmetic .plain "0 && (y = 6 / z)".toList s).2 =
        (evalArithmetic .plain "0".toList s).2 ∧
      (evalArithmetic .plain "0 && RANDOM".toList s).2 ≠
        (evalArithmetic .plain "0".toList s).2 := by
  intro s
  have hkept : Writes .plain s "0".toList (.number 0) (some s) := by
    unfold Writes
    decide +kernel
  constructor
  · have htext : Writes .plain s "0 && (y = 6 / z)".toList (.binary .ampAmp (.number 0)
        (.paren (.assign ['y'] .eq (.binary .slash (.number 6) (.name ['z']))))) (some s) := by
      unfold Writes
      decide +kernel
    exact (skipped_iff htext hkept (.logicalAnd rfl) (by decide) (by decide)).1 (by decide +kernel)
  · have htext : Writes .plain s "0 && RANDOM".toList (.binary .ampAmp (.number 0)
        (.name "RANDOM".toList)) (some s) := by
      unfold Writes
      decide +kernel
    rw [ne_eq, (skipped_iff htext hkept (.logicalAnd rfl) (by decide) (by decide)).2 (by decide)]
    decide +kernel

/-- In `0 && (y = 5)`, `1 || y++` and `1 ? 2 : 3 / 0` the part that is left out is evaluated. -/
theorem skipped_part_is_evaluated :
    let claimed (text keptText : String) (e kept : TokenExpr) : Prop :=
      Writes .plain .new text.toList e (some .new) →
        Writes .plain .new keptText.toList kept (some .new) → Skips (some .new) e kept →
        (evalArithmetic .plain text.toList .new).2 = (evalArithmetic .plain keptText.toList .new).2
    ¬ claimed "0 && (y = 5)" "0"
        (.binary .ampAmp (.number 0) (.paren (.assign ['y'] .eq (.number 5)))) (.number 0) ∧
      ¬ claimed "1 || y++" "1" (.binary .pipePipe (.number 1) (.post ['y'] .up)) (.number 1) ∧
      ¬ claimed "1 ? 2 : 3 / 0" "1 , 2"
        (.cond (.number 1) (.number 2) (.binary .slash (.number 3) (.number 0)))
        (.comma (.number 1) (.number 2)) := by
  unfold Writes
  refine ⟨fun h => ?_, fun h => ?_, fun h => ?_⟩
  · have hspared := h (by decide +kernel) (by decide +kernel) (.logicalAnd rfl)
    revert hspared
    decide +kernel
  · have hspared := h (by decide +kernel) (by decide +kernel) (.logicalOr (by decide))
    revert hspared
    decide +kernel
  · have hspared := h (by decide +kernel) (by decide +kernel) (.elseVal (by decide))
    revert hspared
    decide +kernel

end Wasmsh.Arith

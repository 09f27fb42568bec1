import Mathlib.Data.Bool.AllAny
import Wasmsh.ArithReads
import Wasmsh.ArithTokens
import Wasmsh.ShellHost
import Wasmsh.Variables

/-!
# The value of an arithmetic expression

What an expression without assignments stands for: exact operations on integers whose results
are reduced to 64 bits.  `eval_arithmetic` returns that value for the text of the expression, as
long as its literals are read, the middles of its ternaries hold no comma of their own, and it is
not nested too deep.
-/

namespace Wasmsh.Arith

open Chains Braces

/-! ## 1. Values -/

/-- The word that an integer is reduced to. -/
def wrap (i : Int) : Int64 := Int64.ofInt i

def truth (p : Prop) [Decidable p] : Int64 := wrap (if p then 1 else 0)

/-- The count of a shift is taken modulo the width. -/
def shiftCount (b : Int64) : Nat := (b.toInt % 64).toNat

def UnOp.value : UnOp → Int64 → Int64
  | .bang, v => truth (v.toInt = 0)
  | .tilde, v => wrap (-v.toInt - 1)
  | .plus, v => v
  | .minus, v => wrap (-v.toInt)

def BinOp.value : BinOp → Int64 → Int64 → Int64
  | .star, a, b => wrap (a.toInt * b.toInt)
  | .slash, a, b => wrap (a.toInt.tdiv b.toInt)
  | .percent, a, b => wrap (a.toInt.tmod b.toInt)
  | .plus, a, b => wrap (a.toInt + b.toInt)
  | .minus, a, b => wrap (a.toInt - b.toInt)
  | .lShift, a, b => wrap (a.toInt * 2 ^ shiftCount b)
  | .rShift, a, b => wrap (a.toInt / 2 ^ shiftCount b)
  | .lt, a, b => truth (a.toInt < b.toInt)
  | .gt, a, b => truth (b.toInt < a.toInt)
  | .le, a, b => truth (a.toInt ≤ b.toInt)
  | .ge, a, b => truth (b.toInt ≤ a.toInt)
  | .eqEq, a, b => truth (a.toInt = b.toInt)
  | .ne, a, b => truth (a.toInt ≠ b.toInt)
  | .amp, a, b => ⟨⟨a.toBitVec &&& b.toBitVec⟩⟩
  | .caret, a, b => ⟨⟨a.toBitVec ^^^ b.toBitVec⟩⟩
  | .pipe, a, b => ⟨⟨a.toBitVec ||| b.toBitVec⟩⟩
  | .ampAmp, a, b => truth (a.toInt ≠ 0 ∧ b.toInt ≠ 0)
  | .pipePipe, a, b => truth (a.toInt ≠ 0 ∨ b.toInt ≠ 0)

/-- A power; zero for a negative exponent. -/
def powValue (a b : Int64) : Int64 := if b.toInt < 0 then 0 else wrap (a.toInt ^ b.toInt.toNat)

theorem wrap_toInt (a : Int64) : wrap a.toInt = a := Int64.ofInt_toInt a

theorem UnOp.apply_eq (op : UnOp) (v : Int64) : op.apply v = op.value v := by
  cases op with
  | bang =>
    have hzero : (v == 0) = decide (v.toInt = 0) := by
      rw [Bool.eq_iff_iff, beq_iff_eq, decide_eq_true_eq, ← Int64.toInt_inj]
      rfl
    simp only [apply, value, hzero, ofBool, truth, decide_eq_true_eq]
    split <;> rfl
  | tilde =>
    apply Int64.toInt_inj.mp
    rw [apply, value, Int64.toInt_not, wrap, Int64.toInt_ofInt]
  | plus => rfl
  | minus =>
    rw [apply, value, wrap, Int64.ofInt_neg, Int64.ofInt_toInt]

theorem ofBool_eq {b : Bool} {p : Prop} [Decidable p] (h : b = true ↔ p) : ofBool b = truth p := by
  unfold ofBool truth
  by_cases hp : p
  · rw [if_pos (h.mpr hp), if_pos hp]
    rfl
  · rw [if_neg (mt h.mp hp), if_neg hp]
    rfl

theorem toNat_smod_width (b : Int64) : (b.toBitVec.smod 64).toNat = shiftCount b := by
  have hsmod : (b.toBitVec.smod 64).toInt = b.toInt % 64 := by
    rw [BitVec.toInt_smod]
    exact Int.fmod_eq_emod_of_nonneg _ (by decide)
  have hcond := BitVec.toInt_eq_toNat_cond (b.toBitVec.smod 64)
  have hlt := (b.toBitVec.smod 64).isLt
  unfold shiftCount
  rw [← hsmod]
  have hnonneg : 0 ≤ (b.toBitVec.smod 64).toInt := by
    rw [hsmod]
    omega
  split at hcond <;> omega

theorem shiftLeft_eq (a b : Int64) : a <<< b = wrap (a.toInt * 2 ^ shiftCount b) := by
  apply Int64.toInt_inj.mp
  have hshift : (a <<< b).toBitVec = a.toBitVec <<< (b.toBitVec.smod 64).toNat := rfl
  have htoInt : a.toInt = (a.toBitVec.toNat : Int).bmod (2 ^ 64) :=
    BitVec.toInt_eq_toNat_bmod _
  rw [wrap, Int64.toInt_ofInt, ← Int64.toInt_toBitVec (a <<< b), hshift, BitVec.toInt_shiftLeft,
    toNat_smod_width, htoInt]
  have hpow : ((a.toBitVec.toNat <<< shiftCount b : Nat) : Int) =
      a.toBitVec.toNat * 2 ^ shiftCount b := by
    rw [Nat.shiftLeft_eq]
    push_cast
    rfl
  rw [hpow]
  exact (Int.bmod_mul_bmod ..).symm

theorem shiftRight_eq (a b : Int64) : a >>> b = wrap (a.toInt / 2 ^ shiftCount b) := by
  have hshift : (a >>> b).toBitVec = a.toBitVec.sshiftRight (b.toBitVec.smod 64).toNat := rfl
  have htoInt : (a >>> b).toInt = a.toInt / 2 ^ shiftCount b := by
    rw [← Int64.toInt_toBitVec (a >>> b), hshift, BitVec.toInt_sshiftRight, toNat_smod_width,
      Int.shiftRight_eq_div_pow]
    rfl
  rw [← htoInt, wrap_toInt]

theorem wrappingPowLoop_eq (n : Nat) {e : Nat} (he : e < 2 ^ n) (r b : Int) :
    wrappingPowLoop n e (wrap r) (wrap b) = wrap (r * b ^ e) := by
  induction n generalizing e r b with
  | zero =>
    have hzero : e = 0 := by omega
    rw [hzero, pow_zero, mul_one]
    rfl
  | succ n ih =>
    rw [wrappingPowLoop]
    by_cases hzero : e = 0
    · rw [if_pos hzero, hzero, pow_zero, mul_one]
    · have hhalf : e / 2 < 2 ^ n := by
        rw [pow_succ] at he
        omega
      have hsquare : wrap b * wrap b = wrap (b * b) := (Int64.ofInt_mul b b).symm
      have hresult : (if e % 2 = 1 then wrap r * wrap b else wrap r) =
          wrap (r * b ^ (e % 2)) := by
        rcases Nat.mod_two_eq_zero_or_one e with heven | hodd
        · rw [heven, if_neg Nat.zero_ne_one, pow_zero, mul_one]
        · rw [hodd, if_pos rfl, pow_one]
          exact (Int64.ofInt_mul r b).symm
      rw [if_neg hzero, hsquare, hresult, ih hhalf]
      congr 1
      calc r * b ^ (e % 2) * (b * b) ^ (e / 2)
          = r * (b ^ (e % 2) * b ^ (2 * (e / 2))) := by rw [← pow_two, ← pow_mul, mul_assoc]
        _ = r * b ^ (e % 2 + 2 * (e / 2)) := by rw [pow_add]
        _ = r * b ^ e := by rw [Nat.mod_add_div]

theorem wrappingPow_eq (a b : Int64) : wrappingPow a b = powValue a b := by
  unfold wrappingPow powValue
  have hneg : b < 0 ↔ b.toInt < 0 := Int64.lt_iff_toInt_lt
  by_cases h : b.toInt < 0
  · rw [if_pos (hneg.mpr h), if_pos h]
  · rw [if_neg (mt hneg.mp h), if_neg h]
    have hlt : b.toInt.toNat < 2 ^ 64 := by
      have hb := Int64.toInt_lt b
      omega
    have hloop := wrappingPowLoop_eq 64 hlt 1 a.toInt
    rw [wrap_toInt, one_mul] at hloop
    exact hloop

/-- A power is exact modulo 2^64. -/
theorem wrappingPow_exact (base exp : Int64) (h : 0 ≤ exp.toInt) :
    (wrappingPow base exp).toInt = (base.toInt ^ exp.toInt.toNat).bmod (2 ^ 64) := by
  rw [wrappingPow_eq, powValue, if_neg (Int.not_lt.mpr h), wrap]
  exact Int64.toInt_ofInt

theorem wrappingPow_exact_large :
    (wrappingPow (-3) 41).toInt = ((-3 : Int64).toInt ^ (41 : Int64).toInt.toNat).bmod (2 ^ 64) :=
  wrappingPow_exact (-3) 41 (by decide)

/-- An operator computes its value, apart from a division by zero. -/
theorem BinOp.apply_eq (op : BinOp) (a b : Int64) (st : ArithState)
    (h : op = .slash ∨ op = .percent → b ≠ 0) : op.apply a b st = (op.value a b, st) := by
  have heq : (a == b) = true ↔ a.toInt = b.toInt := by rw [beq_iff_eq, Int64.toInt_inj]
  have hne : ∀ v : Int64, (v != 0) = true ↔ v.toInt ≠ 0 := by
    intro v
    rw [bne_iff_ne, ne_eq, ← Int64.toInt_inj]
    rfl
  have hdivision : ∀ f, op = .slash ∨ op = .percent →
      divisionOp f a b st = (f a b, st) := fun f hop => if_neg (h hop)
  cases op with
  | star =>
    rw [apply, value, wrap, Int64.ofInt_mul, Int64.ofInt_toInt, Int64.ofInt_toInt]
    rfl
  | slash =>
    rw [apply, hdivision _ (Or.inl rfl), value]
    congr 1
    apply Int64.toInt_inj.mp
    rw [Int64.toInt_div, wrap, Int64.toInt_ofInt]
  | percent =>
    rw [apply, hdivision _ (Or.inr rfl), value, ← Int64.toInt_mod, wrap_toInt]
  | plus =>
    rw [apply, value, wrap, Int64.ofInt_add, Int64.ofInt_toInt, Int64.ofInt_toInt]
    rfl
  | minus =>
    rw [apply, value, wrap, Int64.ofInt_sub, Int64.ofInt_toInt, Int64.ofInt_toInt]
    rfl
  | lShift =>
    rw [apply, value, ← shiftLeft_eq]
    rfl
  | rShift =>
    rw [apply, value, ← shiftRight_eq]
    rfl
  | lt | gt =>
    rw [value, ← ofBool_eq (decide_eq_true_iff.trans Int64.lt_iff_toInt_lt)]
    rfl
  | le | ge =>
    rw [value, ← ofBool_eq (decide_eq_true_iff.trans Int64.le_iff_toInt_le)]
    rfl
  | eqEq =>
    rw [value, ← ofBool_eq heq]
    rfl
  | ne =>
    have hbne : (a != b) = true ↔ a.toInt ≠ b.toInt := by
      rw [bne_iff_ne, ne_eq, ne_eq, Int64.toInt_inj]
    rw [value, ← ofBool_eq hbne]
    rfl
  | amp => rfl
  | caret => rfl
  | pipe => rfl
  | ampAmp =>
    have hand : (a != 0 && b != 0) = true ↔ a.toInt ≠ 0 ∧ b.toInt ≠ 0 := by
      rw [Bool.and_eq_true, hne, hne]
    rw [value, ← ofBool_eq hand]
    rfl
  | pipePipe =>
    have hor : (a != 0 || b != 0) = true ↔ a.toInt ≠ 0 ∨ b.toInt ≠ 0 := by
      rw [Bool.or_eq_true, hne, hne]
    rw [value, ← ofBool_eq hor]
    rfl

/-! ## 2. Expressions -/

/-- An expression with the values of its names, read from left to right, and the state after
    that. -/
def Expr.reads {L N : Type} (nm : N → List Char) :
    Expr L N → ArithState → Expr L Int64 × ArithState
  | .number l, st => (.number l, st)
  | .name n, st => (.name (varGet (nm n) st).1, (varGet (nm n) st).2)
  | .pre op n, st => (.pre op (varGet (nm n) st).1, (varGet (nm n) st).2)
  | .post n op, st => (.post (varGet (nm n) st).1 op, (varGet (nm n) st).2)
  | .paren e, st => (.paren (e.reads nm st).1, (e.reads nm st).2)
  | .unary op e, st => (.unary op (e.reads nm st).1, (e.reads nm st).2)
  | .pow a b, st =>
    let base := a.reads nm st
    let exp := b.reads nm base.2
    (.pow base.1 exp.1, exp.2)
  | .binary op a b, st =>
    let lhs := a.reads nm st
    let rhs := b.reads nm lhs.2
    (.binary op lhs.1 rhs.1, rhs.2)
  | .cond c a b, st =>
    let cond := c.reads nm st
    let thenVal := a.reads nm cond.2
    let elseVal := b.reads nm thenVal.2
    (.cond cond.1 thenVal.1 elseVal.1, elseVal.2)
  | .assign n op e, st =>
    let rhs := e.reads nm st
    let cur := assignRead op.token (nm n) rhs.2
    (.assign cur.1 op rhs.1, cur.2)
  | .comma a b, st =>
    let lhs := a.reads nm st
    let rhs := b.reads nm lhs.2
    (.comma lhs.1 rhs.1, rhs.2)

section Expressions

variable {L N : Type} (lit : L → Int64)

/-- The value of an expression without assignments, from the values of its literals. -/
def Expr.value : Expr L Int64 → Int64
  | .number l => lit l
  | .name v | .pre _ v | .post v _ => v
  | .paren e => e.value
  | .unary op e => op.value e.value
  | .pow a b => powValue a.value b.value
  | .binary op a b => op.value a.value b.value
  | .cond c a b => if c.value.toInt ≠ 0 then a.value else b.value
  | .assign _ _ e => e.value
  | .comma _ b => b.value

/-- Nothing is assigned. -/
def Expr.Pure : Expr L N → Prop
  | .pre _ _ | .post _ _ | .assign _ _ _ => False
  | _ => True

instance : DecidablePred (Expr.Pure (L := L) (N := N))
  | .pre _ _ | .post _ _ | .assign _ _ _ => isFalse id
  | .number _ | .name _ | .paren _ | .unary _ _ | .pow _ _ | .binary _ _ _ | .cond _ _ _
  | .comma _ _ => isTrue trivial

/-- Nothing is divided by zero. -/
def Expr.NonzeroDivisor : Expr L Int64 → Prop
  | .binary op _ b => op = .slash ∨ op = .percent → b.value lit ≠ 0
  | _ => True

instance : DecidablePred (Expr.NonzeroDivisor lit)
  | .binary op _ b =>
    inferInstanceAs (Decidable (op = .slash ∨ op = .percent → b.value lit ≠ 0))
  | .number _ | .name _ | .pre _ _ | .post _ _ | .paren _ | .unary _ _ | .pow _ _
  | .cond _ _ _ | .assign _ _ _ | .comma _ _ => isTrue trivial

/-- Nothing is divided. -/
def Expr.NoDivision : Expr L N → Prop
  | .binary op _ _ => op ≠ .slash ∧ op ≠ .percent
  | _ => True

/-- The literals are below `2 ^ 63`. -/
def Expr.Fits : Expr Nat N → Prop
  | .number n => n < 2 ^ 63
  | _ => True

/-- What holds of the parts holds of them with the values of the names. -/
theorem Expr.All.reads {p : Expr L N → Prop} {q : Expr L Int64 → Prop} {nm : N → List Char}
    (h : ∀ e st, p e → q (e.reads nm st).1) {e : Expr L N} (hp : e.All p) (st : ArithState) :
    (e.reads nm st).1.All q := by
  induction e generalizing st with
  | number | name | pre | post => exact h _ st hp
  | paren e ih | unary op e ih | assign n op e ih => exact ⟨h _ st hp.1, ih hp.2 st⟩
  | pow a b iha ihb | binary op a b iha ihb | comma a b iha ihb =>
    exact ⟨h _ st hp.1, iha hp.2.1 st, ihb hp.2.2 _⟩
  | cond c a b ihc iha ihb =>
    exact ⟨h _ st hp.1, ihc hp.2.1 st, iha hp.2.2.1 _, ihb hp.2.2.2 _⟩

/-- Evaluation of all parts only reads, and gives the value. -/
theorem Expr.run_pure (nm : N → List Char) (st : ArithState) {e : Expr L N}
    (hpure : e.All Pure) (hdivisor : (e.reads nm st).1.All (NonzeroDivisor lit)) :
    e.run lit nm st = ((e.reads nm st).1.value lit, (e.reads nm st).2) := by
  induction e generalizing st with
  | number l => rfl
  | name n => rfl
  | pre op n => exact hpure.elim
  | post n op => exact hpure.elim
  | paren e ih => exact ih st hpure.2 hdivisor.2
  | unary op e ih =>
    simp only [run, reads, value, ih st hpure.2 hdivisor.2, UnOp.apply_eq]
  | pow a b iha ihb =>
    simp only [run, reads, value, iha st hpure.2.1 hdivisor.2.1, ihb _ hpure.2.2 hdivisor.2.2,
      wrappingPow_eq]
  | binary op a b iha ihb =>
    simp only [run, reads, value, iha st hpure.2.1 hdivisor.2.1, ihb _ hpure.2.2 hdivisor.2.2]
    exact op.apply_eq _ _ _ hdivisor.1
  | cond c a b ihc iha ihb =>
    have hcond : ∀ v : Int64, v ≠ 0 ↔ v.toInt ≠ 0 := by
      intro v
      rw [ne_eq, ← Int64.toInt_inj]
      rfl
    simp only [run, reads, value, ihc st hpure.2.1 hdivisor.2.1, iha _ hpure.2.2.1 hdivisor.2.2.1,
      ihb _ hpure.2.2.2 hdivisor.2.2.2, hcond]
  | assign n op e ih => exact hpure.1.elim
  | comma a b iha ihb =>
    simp only [run, reads, value, iha st hpure.2.1 hdivisor.2.1, ihb _ hpure.2.2 hdivisor.2.2]

/-- The value depends on the values of the literals that stand in the expression. -/
theorem Expr.value_congr {lit lit' : L → Int64} {e : Expr L Int64}
    (h : e.All fun e => ∀ l, e = .number l → lit l = lit' l) :
    e.value lit = e.value lit' := by
  induction e with
  | number l => exact h l rfl
  | name | pre | post => rfl
  | paren e ih => exact ih h.2
  | unary op e ih => rw [value, value, ih h.2]
  | pow a b iha ihb => rw [value, value, iha h.2.1, ihb h.2.2]
  | binary op a b iha ihb => rw [value, value, iha h.2.1, ihb h.2.2]
  | cond c a b ihc iha ihb => rw [value, value, ihc h.2.1, iha h.2.2.1, ihb h.2.2.2]
  | assign n op e ih => exact ih h.2
  | comma a b iha ihb => exact ihb h.2.2

end Expressions

/-! ## 3. Literals -/

/-- The value of a decimal literal. -/
def decimal (n : Nat) : Int64 := wrap n

theorem digitsValue_toDigits (n : Nat) : digitsValue (Nat.toDigits 10 n) = some n := by
  have hall : (Nat.toDigits 10 n).all Char.isDigit = true := by
    rw [List.all_eq_true]
    intro c hc
    exact Nat.isDigit_of_mem_toDigits (by decide) (le_refl 10) hc
  have hvalue := Nat.ofDigitChars_ten_toDigits (n := n)
  rw [Nat.ofDigitChars_eq_foldl] at hvalue
  unfold digitsValue
  split
  · next heq => exact absurd heq Nat.toDigits_ne_nil
  · rw [if_pos hall, hvalue]

theorem parseI64_toDigits (n : Nat) :
    parseI64 (Nat.toDigits 10 n) = (some (n : Int)).filter (· < 2 ^ 63) := by
  have hdigit : ∀ c cs, Nat.toDigits 10 n = c :: cs → c.isDigit = true := by
    intro c cs heq
    apply Nat.isDigit_of_mem_toDigits (b := 10) (n := n) (by decide) (le_refl 10)
    rw [heq]
    exact .head _
  unfold parseI64 parseSigned
  split
  · next heq => exact absurd (hdigit _ _ heq) (by decide)
  · next heq => exact absurd (hdigit _ _ heq) (by decide)
  · rw [digitsValue_toDigits]
    rfl

/-- A literal from `2 ^ 63` on is read as zero. -/
theorem literal_eq (n : Nat) : literal n = if n < 2 ^ 63 then decimal n else 0 := by
  rw [literal, parseI64_toDigits, Option.filter_some]
  have hcast : ((n : Int) < 2 ^ 63) ↔ n < 2 ^ 63 := by omega
  by_cases h : n < 2 ^ 63
  · rw [if_pos (decide_eq_true (hcast.mpr h)), if_pos h]
    rfl
  · rw [if_neg (by simpa using mt hcast.mp h), if_neg h]
    rfl

theorem Expr.value_of_fits {e : Expr Nat Int64} (h : e.All Fits) :
    e.value literal = e.value decimal := by
  apply value_congr
  apply h.both _ h
  rintro _ hfits - n rfl
  have hlt : n < 2 ^ 63 := hfits
  rw [literal_eq, if_pos hlt]

/-! ## 4. The evaluation of a text -/

/-- The pending arithmetic error. -/
def pendingError (st : ArithState) : Option String :=
  st.bind fun s => (s.env.get "_ARITH_ERROR").map (·.value.asScalar)

/-- The expression with the values that its names have in a state, one read after the other. -/
def Expr.inState (e : Expr Nat Identifier) (s : ShellState) : Expr Nat Int64 :=
  (e.reads Identifier.text (some s)).1

/-- The evaluation of the text records the error of the depth guard, or returns the value. -/
def Expr.Matches (x : Expander) (e : Expr Nat Identifier) (s : ShellState) : Prop :=
  pendingError (evalArithmetic x e.text s).2 = some recursionLimit ∨
    (evalArithmetic x e.text s).1 = (e.inState s).value decimal

/-- A token that neither assigns nor divides. -/
def Harmless (t : ArithToken) : Prop :=
  (assignOp t).isNone = true ∧ t ∉ [.slash, .percent, .plusPlus, .minusMinus]

/-- What the error of the guard keeps is kept where nothing is assigned or divided. -/
theorem kept_harmless {bad : ArithState → Prop}
    (hlimit : ∀ st, bad st → bad (setArithError recursionLimit st))
    (hread : ∀ name st, bad st → bad (varGet name st).2) : Kept Harmless bad := by
  refine ⟨hlimit, ?_, ?_, hread⟩
  · rintro t (rfl | rfl) hok
    · exact absurd hok.2 (by decide)
    · exact absurd hok.2 (by decide)
  · rintro t (hassign | rfl | rfl) hok
    · rw [Option.isSome_iff_ne_none, ne_eq, ← Option.isNone_iff_eq_none] at hassign
      exact absurd hok.1 hassign
    · exact absurd hok.2 (by decide)
    · exact absurd hok.2 (by decide)

theorem pendingError_setArithError (message : String) (s : ShellState) :
    pendingError (setArithError message (some s)) = some message := by
  simp [pendingError, setArithError, ShellState.setArithError, ShellState.setPending,
    VarValue.asScalar, ShellVar.ofScalar]

theorem pendingError_varGet (name : List Char) (st : ArithState) :
    pendingError (varGet name st).2 = pendingError st := by
  cases st with
  | none => rfl
  | some s =>
    rcases varGet_some name s with ⟨seed, hread⟩
    rw [hread]
    rfl

/-- Reading the names of an expression leaves the pending error as it is. -/
theorem Expr.pendingError_reads {e : Expr Nat Identifier} (hpure : e.All Pure) (st : ArithState) :
    pendingError (e.reads Identifier.text st).2 = pendingError st := by
  induction e generalizing st with
  | number l => rfl
  | name n => exact pendingError_varGet _ st
  | pre op n => exact hpure.elim
  | post n op => exact hpure.elim
  | paren e ih => exact ih hpure.2 st
  | unary op e ih => exact ih hpure.2 st
  | pow a b iha ihb | binary op a b iha ihb | comma a b iha ihb =>
    exact (ihb hpure.2.2 _).trans (iha hpure.2.1 st)
  | cond c a b ihc iha ihb =>
    exact (ihb hpure.2.2.2 _).trans ((iha hpure.2.2.1 _).trans (ihc hpure.2.1 st))
  | assign n op e ih => exact hpure.1.elim

theorem Expr.harmless {e : Expr Nat Identifier} (hpure : e.All Pure) (hdivision : e.All NoDivision) :
    ∀ t ∈ e.tokens literal Identifier.text, Harmless t := by
  have hpunctuation : ∀ t ∈ punctuation, Harmless t := by
    unfold Harmless
    decide
  have hoperator : ∀ e : Expr Nat Identifier, e.Pure → e.NoDivision → e.Operator Harmless := by
    intro e hpure hdivision
    cases e with
    | pre => exact hpure.elim
    | post => exact hpure.elim
    | assign => exact hpure.elim
    | unary op e => cases op <;> exact ⟨rfl, by decide⟩
    | binary op a b =>
      have hharmless : op ≠ .slash → op ≠ .percent → Harmless op.token := by
        unfold Harmless
        cases op <;> decide
      exact hharmless hdivision.1 hdivision.2
    | number | name | paren | pow | cond | comma => trivial
  have hsigns := Expr.signs hpunctuation (hpure.both hoperator hdivision)
  intro t ht
  rcases List.mem_map.mp ht with ⟨l, hl, rfl⟩
  cases l with
  | number n => exact ⟨rfl, by simp [Lexeme.token]⟩
  | name i => exact ⟨rfl, by simp [Lexeme.token]⟩
  | sign t => exact hsigns t hl

/-- Beyond the levels of recursion the error of the guard stays, if nothing is divided. -/
theorem Expr.matches_of_noDivision (x : Expander) {e : Expr Nat Identifier} (s : ShellState)
    (hpure : e.All Pure) (hclosed : e.All ClosedMiddle) (hdivision : e.All NoDivision)
    (hfits : e.All Fits) : e.Matches x s := by
  have hok := Expr.harmless hpure hdivision
  have hlimit : ∀ st, ∀ t, setArithError recursionLimit st = some t →
      pendingError (some t) = some recursionLimit := by
    intro st t ht
    cases st with
    | none => cases ht
    | some s =>
      rw [← ht]
      exact pendingError_setArithError _ s
  have hreturns : Kept Harmless fun st => st.isSome = true := by
    refine kept_harmless (fun st h => ?_) fun name st h => ?_
    · rcases Option.isSome_iff_exists.mp h with ⟨t, rfl⟩
      rfl
    · rcases Option.isSome_iff_exists.mp h with ⟨t, rfl⟩
      rfl
  have hsome := (parseExpr_sane (parsers_sane hreturns maxArithDepth).1).keeps _ (some s) hok rfl
  unfold Matches
  rw [evalArithmetic_parse literal Identifier.text (e.arithTokenize_text x (some s))]
  have hkept : Kept Harmless fun st => ∀ t, st = some t →
      pendingError (some t) = some recursionLimit := by
    refine kept_harmless (fun st _ => hlimit st) fun name st h t ht => ?_
    rw [← ht, pendingError_varGet]
    cases st with
    | none => cases ht
    | some s => exact h s rfl
  rcases e.parsed literal Identifier.text hkept hclosed (some s) (Or.inr hlimit) hok
    with hbad | heq
  · left
    rcases Option.isSome_iff_exists.mp hsome with ⟨t, ht⟩
    rw [ht]
    exact hbad t ht
  · right
    have hdivisor : (e.inState s).All (NonzeroDivisor literal) := by
      refine hdivision.reads (fun e st hnone => ?_) (some s)
      cases e with
      | binary op a b =>
        rintro (rfl | rfl)
        · exact absurd rfl hnone.1
        · exact absurd rfl hnone.2
      | _ => trivial
    have hfits' : (e.inState s).All Fits := by
      refine hfits.reads (fun e st h => ?_) (some s)
      cases e with
      | number n => exact h
      | _ => trivial
    rw [heq, e.run_pure literal Identifier.text (some s) hpure hdivisor]
    exact value_of_fits hfits'

/-- The value of a text within the levels of recursion, its literals read as the code reads
    them. -/
theorem Expr.evalArithmetic_of_depth_le (x : Expander) {e : Expr Nat Identifier}
    (s : ShellState) (hpure : e.All Pure)
    (hdivisor : (e.inState s).All (NonzeroDivisor literal)) (hclosed : e.All ClosedMiddle)
    (hdepth : e.depth ≤ maxArithDepth) :
    evalArithmetic x e.text s =
      ((e.inState s).value literal, (e.reads Identifier.text (some s)).2) := by
  rw [evalArithmetic_run literal Identifier.text (e.arithTokenize_text x (some s)) hclosed hdepth]
  exact e.run_pure literal Identifier.text (some s) hpure hdivisor

instance (x : Expander) (e : Expr Nat Identifier) (s : ShellState) : Decidable (e.Matches x s) :=
  inferInstanceAs (Decidable (_ ∨ _))

end Wasmsh.Arith

import Wasmsh.Arithmetic

/-!
# Arithmetic expressions as trees

The expressions that the parser of `Arithmetic` is for: how a tree is written, with no more
parentheses than precedence and associativity ask for, and what the evaluation of its parts one
after the other comes to.  The parser computes while it reads, so the second is what it does
when it does not lose its way: it evaluates every part, also those whose value is not used.
-/

namespace Wasmsh.Arith

open Chains

/-! ## 1. Trees -/

/-- The unary operators. -/
inductive UnOp where
  | bang | tilde | plus | minus
  deriving DecidableEq, Repr

/-- The left-associative operators, apart from the comma. -/
inductive BinOp where
  | star | slash | percent | plus | minus | lShift | rShift
  | lt | gt | le | ge | eqEq | ne
  | amp | caret | pipe | ampAmp | pipePipe
  deriving DecidableEq, Repr

/-- The assignments. -/
inductive AssignOp where
  | eq | plusEq | minusEq | starEq | slashEq | percentEq | lShiftEq | rShiftEq
  | ampEq | caretEq | pipeEq
  deriving DecidableEq, Repr

/-- `++` and `--`. -/
inductive StepOp where
  | up | down
  deriving DecidableEq, Repr

/-- An expression over its literals and names. -/
inductive Expr (L N : Type) where
  | number (l : L)
  | name (n : N)
  | pre (op : StepOp) (n : N)
  | post (n : N) (op : StepOp)
  | paren (e : Expr L N)
  | unary (op : UnOp) (e : Expr L N)
  | pow (a b : Expr L N)
  | binary (op : BinOp) (a b : Expr L N)
  | cond (c a b : Expr L N)
  | assign (n : N) (op : AssignOp) (e : Expr L N)
  | comma (a b : Expr L N)
  deriving DecidableEq, Repr

variable {L N : Type}

/-- A predicate of every subexpression. -/
def Expr.All (p : Expr L N → Prop) : Expr L N → Prop
  | .number l => p (.number l)
  | .name n => p (.name n)
  | .pre op n => p (.pre op n)
  | .post n op => p (.post n op)
  | .paren e => p (.paren e) ∧ e.All p
  | .unary op e => p (.unary op e) ∧ e.All p
  | .pow a b => p (.pow a b) ∧ a.All p ∧ b.All p
  | .binary op a b => p (.binary op a b) ∧ a.All p ∧ b.All p
  | .cond c a b => p (.cond c a b) ∧ c.All p ∧ a.All p ∧ b.All p
  | .assign n op e => p (.assign n op e) ∧ e.All p
  | .comma a b => p (.comma a b) ∧ a.All p ∧ b.All p

instance Expr.decidableAll (p : Expr L N → Prop) [DecidablePred p] :
    (e : Expr L N) → Decidable (e.All p)
  | .number l => inferInstanceAs (Decidable (p (.number l)))
  | .name n => inferInstanceAs (Decidable (p (.name n)))
  | .pre op n => inferInstanceAs (Decidable (p (.pre op n)))
  | .post n op => inferInstanceAs (Decidable (p (.post n op)))
  | .paren e =>
    have := decidableAll p e
    inferInstanceAs (Decidable (_ ∧ _))
  | .unary _ e =>
    have := decidableAll p e
    inferInstanceAs (Decidable (_ ∧ _))
  | .pow a b =>
    have := decidableAll p a
    have := decidableAll p b
    inferInstanceAs (Decidable (_ ∧ _ ∧ _))
  | .binary _ a b =>
    have := decidableAll p a
    have := decidableAll p b
    inferInstanceAs (Decidable (_ ∧ _ ∧ _))
  | .cond c a b =>
    have := decidableAll p c
    have := decidableAll p a
    have := decidableAll p b
    inferInstanceAs (Decidable (_ ∧ _ ∧ _ ∧ _))
  | .assign _ _ e =>
    have := decidableAll p e
    inferInstanceAs (Decidable (_ ∧ _))
  | .comma a b =>
    have := decidableAll p a
    have := decidableAll p b
    inferInstanceAs (Decidable (_ ∧ _ ∧ _))

theorem Expr.All.of_forall {p : Expr L N → Prop} (h : ∀ e, p e) (e : Expr L N) : e.All p := by
  induction e with
  | number | name | pre | post => exact h _
  | paren e ih => exact ⟨h _, ih⟩
  | unary op e ih => exact ⟨h _, ih⟩
  | pow a b iha ihb => exact ⟨h _, iha, ihb⟩
  | binary op a b iha ihb => exact ⟨h _, iha, ihb⟩
  | cond c a b ihc iha ihb => exact ⟨h _, ihc, iha, ihb⟩
  | assign n op e ih => exact ⟨h _, ih⟩
  | comma a b iha ihb => exact ⟨h _, iha, ihb⟩

/-- What two predicates say of every subexpression together. -/
theorem Expr.All.both {p q r : Expr L N → Prop} (h : ∀ e, p e → q e → r e) {e : Expr L N}
    (hp : e.All p) (hq : e.All q) : e.All r := by
  induction e with
  | number | name | pre | post => exact h _ hp hq
  | paren e ih | unary op e ih | assign n op e ih => exact ⟨h _ hp.1 hq.1, ih hp.2 hq.2⟩
  | pow a b iha ihb | binary op a b iha ihb | comma a b iha ihb =>
    exact ⟨h _ hp.1 hq.1, iha hp.2.1 hq.2.1, ihb hp.2.2 hq.2.2⟩
  | cond c a b ihc iha ihb =>
    exact ⟨h _ hp.1 hq.1, ihc hp.2.1 hq.2.1, iha hp.2.2.1 hq.2.2.1, ihb hp.2.2.2 hq.2.2.2⟩

/-! ## 2. Precedence -/

def UnOp.token : UnOp → ArithToken
  | .bang => .bang
  | .tilde => .tilde
  | .plus => .plus
  | .minus => .minus

def BinOp.token : BinOp → ArithToken
  | .star => .star
  | .slash => .slash
  | .percent => .percent
  | .plus => .plus
  | .minus => .minus
  | .lShift => .lShift
  | .rShift => .rShift
  | .lt => .lt
  | .gt => .gt
  | .le => .le
  | .ge => .ge
  | .eqEq => .eqEq
  | .ne => .ne
  | .amp => .amp
  | .caret => .caret
  | .pipe => .pipe
  | .ampAmp => .ampAmp
  | .pipePipe => .pipePipe

def AssignOp.token : AssignOp → ArithToken
  | .eq => .eq
  | .plusEq => .plusEq
  | .minusEq => .minusEq
  | .starEq => .starEq
  | .slashEq => .slashEq
  | .percentEq => .percentEq
  | .lShiftEq => .lShiftEq
  | .rShiftEq => .rShiftEq
  | .ampEq => .ampEq
  | .caretEq => .caretEq
  | .pipeEq => .pipeEq

def StepOp.token : StepOp → ArithToken
  | .up => .plusPlus
  | .down => .minusMinus

/-- How loosely an operator binds, from the multiplications on. -/
def BinOp.level : BinOp → Nat
  | .star | .slash | .percent => 0
  | .plus | .minus => 1
  | .lShift | .rShift => 2
  | .lt | .gt | .le | .ge => 3
  | .eqEq | .ne => 4
  | .amp => 5
  | .caret => 6
  | .pipe => 7
  | .ampAmp => 8
  | .pipePipe => 9

/-- The places an expression can stand in, those that take less first: the operand of a unary
    operator, one of a chain of operators that bind tighter than those of a level, the right
    side of an assignment, and where any expression may stand. -/
inductive Slot where
  | operand
  | chain (level : Nat)
  | assignment
  | any
  deriving DecidableEq, Repr

def Slot.rank : Slot → Nat
  | .operand => 0
  | .chain level => level + 1
  | .assignment => 12
  | .any => 13

/-- The least place for an expression without parentheses around it. -/
def Expr.slot : Expr L N → Slot
  | .number _ | .name _ | .pre _ _ | .post _ _ | .paren _ | .unary _ _ => .operand
  | .pow _ _ => .chain 0
  | .binary op _ _ => .chain (op.level + 1)
  | .cond _ _ _ | .assign _ _ _ => .assignment
  | .comma _ _ => .any

theorem BinOp.level_lt (op : BinOp) : op.level < 10 := by
  cases op <;> decide

/-! ## 3. Writing -/

/-- A literal, a name or another token. -/
inductive Lexeme (L N : Type) where
  | number (l : L)
  | name (n : N)
  | sign (t : ArithToken)
  deriving DecidableEq, Repr

/-- The token of a lexeme, from the values of the literals and the texts of the names. -/
def Lexeme.token (lit : L → Int64) (nm : N → List Char) : Lexeme L N → ArithToken
  | .number l => .number (lit l)
  | .name n => .ident (nm n)
  | .sign t => t

/-- In parentheses if the place does not take the expression without. -/
def bracket (place own : Slot) (ts : List (Lexeme L N)) : List (Lexeme L N) :=
  if place.rank < own.rank then .sign .lParen :: (ts ++ [.sign .rParen]) else ts

/-- The lexemes of an expression. -/
def Expr.lexemes : Expr L N → List (Lexeme L N)
  | .number l => [.number l]
  | .name n => [.name n]
  | .pre op n => [.sign op.token, .name n]
  | .post n op => [.name n, .sign op.token]
  | .paren e => .sign .lParen :: (e.lexemes ++ [.sign .rParen])
  | .unary op e => .sign op.token :: bracket .operand e.slot e.lexemes
  | .pow a b =>
    bracket .operand a.slot a.lexemes ++ .sign .starStar :: bracket (.chain 0) b.slot b.lexemes
  | .binary op a b =>
    bracket (.chain (op.level + 1)) a.slot a.lexemes ++
      .sign op.token :: bracket (.chain op.level) b.slot b.lexemes
  | .cond c a b =>
    bracket (.chain 10) c.slot c.lexemes ++
      .sign .question :: (a.lexemes ++
        .sign .colon :: bracket .assignment b.slot b.lexemes)
  | .assign n op e => .name n :: .sign op.token :: bracket .assignment e.slot e.lexemes
  | .comma a b => a.lexemes ++ .sign .comma :: bracket .assignment b.slot b.lexemes

/-- A predicate of the signs among lexemes. -/
def Signs (q : ArithToken → Prop) (ls : List (Lexeme L N)) : Prop := ∀ t, .sign t ∈ ls → q t

/-- A predicate of the operator of an expression. -/
def Expr.Operator (q : ArithToken → Prop) : Expr L N → Prop
  | .pre op _ | .post _ op => q op.token
  | .unary op _ => q op.token
  | .binary op _ _ => q op.token
  | .assign _ op _ => q op.token
  | _ => True

/-- The signs that do not depend on an operator. -/
def punctuation : List ArithToken := [.lParen, .rParen, .starStar, .question, .colon, .comma]

section Signs

variable {q : ArithToken → Prop} {ls ms : List (Lexeme L N)}

theorem signs_nil : Signs q ([] : List (Lexeme L N)) := fun _ h => by cases h

theorem Signs.sign {t : ArithToken} (h : Signs q ls) (ht : q t) : Signs q (.sign t :: ls) := by
  intro u hu
  rcases List.mem_cons.mp hu with heq | hu
  · cases heq
    exact ht
  · exact h u hu

theorem Signs.name {n : N} (h : Signs q ls) : Signs q (.name n :: ls) := by
  intro u hu
  rcases List.mem_cons.mp hu with heq | hu
  · cases heq
  · exact h u hu

theorem Signs.append (hl : Signs q ls) (hm : Signs q ms) : Signs q (ls ++ ms) := fun u hu =>
  (List.mem_append.mp hu).elim (hl u) (hm u)

variable (hq : ∀ t ∈ punctuation, q t)

include hq

theorem Signs.bracket {place own : Slot} (h : Signs q ls) : Signs q (bracket place own ls) := by
  unfold Arith.bracket
  split
  · have hclosed := h.append (signs_nil.sign (hq .rParen (by decide)))
    exact hclosed.sign (hq .lParen (by decide))
  · exact h

/-- The signs of an expression are punctuation and the operators of its subexpressions. -/
theorem Expr.signs {e : Expr L N} (h : e.All (Operator q)) : Signs q e.lexemes := by
  induction e with
  | number l =>
    intro u hu
    rcases List.mem_cons.mp hu with heq | hu
    · cases heq
    · cases hu
  | name n => exact signs_nil.name
  | pre op n => exact signs_nil.name.sign h
  | post n op => exact (signs_nil.sign h).name
  | paren e ih =>
    have hclosed := (ih h.2).append (signs_nil.sign (hq .rParen (by decide)))
    exact hclosed.sign (hq .lParen (by decide))
  | unary op e ih => exact ((ih h.2).bracket hq).sign h.1
  | pow a b iha ihb =>
    apply ((iha h.2.1).bracket hq).append
    exact ((ihb h.2.2).bracket hq).sign (hq .starStar (by decide))
  | binary op a b iha ihb =>
    exact ((iha h.2.1).bracket hq).append (((ihb h.2.2).bracket hq).sign h.1)
  | cond c a b ihc iha ihb =>
    apply ((ihc h.2.1).bracket hq).append
    apply Signs.sign _ (hq .question (by decide))
    apply (iha h.2.2.1).append
    exact ((ihb h.2.2.2).bracket hq).sign (hq .colon (by decide))
  | assign n op e ih => exact (((ih h.2).bracket hq).sign h.1).name
  | comma a b iha ihb =>
    apply (iha h.2.1).append
    exact ((ihb h.2.2).bracket hq).sign (hq .comma (by decide))

end Signs

/-- The tokens of an expression. -/
def Expr.tokens (lit : L → Int64) (nm : N → List Char) (e : Expr L N) : List ArithToken :=
  e.lexemes.map (Lexeme.token lit nm)

/-! ## 4. Evaluation -/

def UnOp.apply : UnOp → Int64 → Int64
  | .bang, v => ofBool (v == 0)
  | .tilde, v => ~~~v
  | .plus, v => v
  | .minus, v => -v

/-- What a binary operator does with the values of its operands. -/
def BinOp.apply : BinOp → Action ArithState Int64
  | .star => pureOp fun a b => a * b
  | .slash => divisionOp fun a b => a / b
  | .percent => divisionOp fun a b => a % b
  | .plus => pureOp fun a b => a + b
  | .minus => pureOp fun a b => a - b
  | .lShift => pureOp fun a b => a <<< b
  | .rShift => pureOp fun a b => a >>> b
  | .lt => pureOp fun a b => ofBool (decide (a < b))
  | .gt => pureOp fun a b => ofBool (decide (b < a))
  | .le => pureOp fun a b => ofBool (decide (a ≤ b))
  | .ge => pureOp fun a b => ofBool (decide (b ≤ a))
  | .eqEq => pureOp fun a b => ofBool (a == b)
  | .ne => pureOp fun a b => ofBool (a != b)
  | .amp => pureOp fun a b => a &&& b
  | .caret => pureOp fun a b => a ^^^ b
  | .pipe => pureOp fun a b => a ||| b
  | .ampAmp => pureOp fun a b => ofBool (a != 0 && b != 0)
  | .pipePipe => pureOp fun a b => ofBool (a != 0 || b != 0)

/-- What an assignment makes of the value of the variable and that of its right side. -/
def AssignOp.apply : AssignOp → Int64 → Int64 → Int64
  | .eq, _, rhs => rhs
  | .plusEq, cur, rhs => cur + rhs
  | .minusEq, cur, rhs => cur - rhs
  | .starEq, cur, rhs => cur * rhs
  | .slashEq, cur, rhs => if rhs = 0 then 0 else cur / rhs
  | .percentEq, cur, rhs => if rhs = 0 then 0 else cur % rhs
  | .lShiftEq, cur, rhs => cur <<< rhs
  | .rShiftEq, cur, rhs => cur >>> rhs
  | .ampEq, cur, rhs => cur &&& rhs
  | .caretEq, cur, rhs => cur ^^^ rhs
  | .pipeEq, cur, rhs => cur ||| rhs

def StepOp.apply : StepOp → Int64 → Int64
  | .up, v => v + 1
  | .down, v => v - 1

/-- The value of an expression all of whose parts are evaluated, in the order in which they are
    written, and the state after it. -/
def Expr.run (lit : L → Int64) (nm : N → List Char) :
    Expr L N → ArithState → Int64 × ArithState
  | .number l, st => (lit l, st)
  | .name n, st => varGet (nm n) st
  | .pre op n, st =>
    let cur := varGet (nm n) st
    (op.apply cur.1, varSet (nm n) (op.apply cur.1) cur.2)
  | .post n op, st =>
    let cur := varGet (nm n) st
    (cur.1, varSet (nm n) (op.apply cur.1) cur.2)
  | .paren e, st => e.run lit nm st
  | .unary op e, st =>
    let r := e.run lit nm st
    (op.apply r.1, r.2)
  | .pow a b, st =>
    let base := a.run lit nm st
    let exp := b.run lit nm base.2
    (wrappingPow base.1 exp.1, exp.2)
  | .binary op a b, st =>
    let lhs := a.run lit nm st
    let rhs := b.run lit nm lhs.2
    op.apply lhs.1 rhs.1 rhs.2
  | .cond c a b, st =>
    let cond := c.run lit nm st
    let thenVal := a.run lit nm cond.2
    let elseVal := b.run lit nm thenVal.2
    (if cond.1 ≠ 0 then thenVal.1 else elseVal.1, elseVal.2)
  | .assign n op e, st =>
    let rhs := e.run lit nm st
    let cur := assignRead op.token (nm n) rhs.2
    let result := op.apply cur.1 rhs.1
    (result, varSet (nm n) result cur.2)
  | .comma a b, st => b.run lit nm (a.run lit nm st).2

/-! ## 5. Depth -/

/-- How many guarded functions lie between a place and `parse_unary`. -/
def Slot.guards : Slot → Nat
  | .operand => 0
  | .chain _ => 1
  | .assignment | .any => 2

/-- The levels that an expression takes in a place, from those it takes in its own. -/
def levelsIn (place own : Slot) (n : Nat) : Nat :=
  if place.rank < own.rank then place.guards + 1 + ((2 - own.guards) + n)
  else place.guards - own.guards + n

/-- The levels of recursion that reading an expression takes. -/
def Expr.levels : Expr L N → Nat
  | .number _ | .name _ | .pre _ _ | .post _ _ => 1
  | .paren e => 1 + levelsIn .any e.slot e.levels
  | .unary _ e => 1 + levelsIn .operand e.slot e.levels
  | .pow a b =>
    1 + max (levelsIn .operand a.slot a.levels) (levelsIn (.chain 0) b.slot b.levels)
  | .binary op a b =>
    max (levelsIn (.chain (op.level + 1)) a.slot a.levels)
      (levelsIn (.chain op.level) b.slot b.levels)
  | .cond c a b =>
    1 + max (levelsIn (.chain 10) c.slot c.levels)
      (max (levelsIn .assignment a.slot a.levels) (levelsIn .assignment b.slot b.levels))
  | .assign _ _ e => 1 + levelsIn .assignment e.slot e.levels
  | .comma a b =>
    max (levelsIn .any a.slot a.levels) (levelsIn .assignment b.slot b.levels)

/-- The levels of recursion that reading a whole text takes. -/
def Expr.depth (e : Expr L N) : Nat := levelsIn .any e.slot e.levels

/-- The middle of a ternary is not a comma expression without parentheses: `parse_ternary` reads
    it as an assignment. -/
def Expr.ClosedMiddle : Expr L N → Prop
  | .cond _ a _ => a.slot ≠ .any
  | _ => True

instance : DecidablePred (Expr.ClosedMiddle (L := L) (N := N))
  | .cond _ a _ => inferInstanceAs (Decidable (a.slot ≠ .any))
  | .number _ | .name _ | .pre _ _ | .post _ _ | .paren _ | .unary _ _ | .pow _ _
  | .binary _ _ _ | .assign _ _ _ | .comma _ _ => isTrue trivial

end Wasmsh.Arith

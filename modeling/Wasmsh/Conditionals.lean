import Wasmsh.DblBracket
import Wasmsh.Library.Bounded

/-!
# Conditional expressions

The trees that `[[ ]]` stands for, as they are printed and as they are evaluated.  The evaluator
gives the value of a printed tree when no operand reads as an operator where it stands, and it
expands the operands of all tests, those too that are skipped.
-/

namespace Wasmsh.DblBracket

open Fs Bounded

/-! ## 1. Trees -/

/-- The letter of a unary test. -/
abbrev UnaryOp := { flag : Char // flag ∈ stringFlags ++ fileFlags }

/-- The text of a binary test. -/
abbrev BinaryOp := { op : Token // op ∈ binaryOps }

/-- A conditional expression over its operands. -/
inductive Expr (α : Type) where
  | str (a : α)
  | unary (op : UnaryOp) (a : α)
  | binary (lhs : α) (op : BinaryOp) (rhs : α)
  | not (e : Expr α)
  | and (a b : Expr α)
  | or (a b : Expr α)
  | group (e : Expr α)

/-- What stands between blanks in a printed expression. -/
inductive Piece (α : Type) where
  | op (t : Token)
  | operand (a : α)
  deriving DecidableEq, Repr

namespace Piece

def token : Piece Token → Token
  | .op t => t
  | .operand t => t

/-- An operator is a word of its own. -/
def word : Piece Word → Word
  | .op t => ⟨[.literal t]⟩
  | .operand w => w

end Piece

namespace Expr

section

variable {α : Type}

def paren (needed : Bool) (ps : List (Piece α)) : List (Piece α) :=
  if needed then .op "(".toList :: ps ++ [.op ")".toList] else ps

/-- An expression where `||` may stand (0), or `&&` (1), or only `!` (2): what binds less is put
    into parentheses. -/
def print : Nat → Expr α → List (Piece α)
  | _, .str a => [.operand a]
  | _, .unary op a => [.op ['-', op.1], .operand a]
  | _, .binary lhs op rhs => [.operand lhs, .op op.1, .operand rhs]
  | _, .not e => .op "!".toList :: print 2 e
  | n, .and a b => paren (decide (1 < n)) (print 1 a ++ .op "&&".toList :: print 2 b)
  | n, .or a b => paren (decide (0 < n)) (print 0 a ++ .op "||".toList :: print 1 b)
  | _, .group e => paren true (print 0 e)

end

/-- The texts of a printed expression. -/
def tokens (n : Nat) (e : Expr Token) : List Token := (e.print n).map Piece.token

section

variable {R : Type} (env : TestEnv R)

/-- The value of an expression. -/
def value : Expr Token → Bool
  | .str t => !t.isEmpty
  | .unary op t => evalUnary env op.1 t
  | .binary lhs op rhs => evalBinaryOp env lhs op.1 rhs
  | .not e => !value e
  | .and a b => value a && value b
  | .or a b => value a || value b
  | .group e => value e

end

/-- The matches of `=~` in all tests. -/
def matched : Expr Token → List Rematch
  | .str _ => []
  | .unary _ _ => []
  | .binary lhs op rhs => rematches lhs op.1 rhs
  | .not e => matched e
  | .and a b => matched a ++ matched b
  | .or a b => matched a ++ matched b
  | .group e => matched e

/-! ## 2. Operands that read as operands -/

/-- A first operand is no operator where it stands: it is neither `!` nor `(`, nor a unary operator
    that takes what follows as its operand. -/
def NotAnOperator (t : Token) (rest : List Token) : Prop :=
  t ≠ "!".toList ∧ t ≠ "(".toList ∧ unaryTest (t :: rest) = none

/-- The pattern of `=~` ends where its operand ends. -/
def RegexEnds (rhs : Token) (rest : List Token) : Prop :=
  rhs ≠ "&&".toList ∧ rhs ≠ "||".toList ∧
    ∀ t ∈ rest.head?, t = "&&".toList ∨ t = "||".toList

/-- What follows an expression that is put into parentheses. -/
def closed (needed : Bool) (rest : List Token) : List Token :=
  if needed then ")".toList :: rest else rest

/-- No operand of the expression reads as an operator; `rest` is what follows. -/
def ReadsBack : Nat → List Token → Expr Token → Prop
  | _, rest, .str t => NotAnOperator t rest
  | _, _, .unary _ _ => True
  | _, rest, .binary lhs op rhs =>
    NotAnOperator lhs (op.1 :: rhs :: rest) ∧ (op.1 = "=~".toList → RegexEnds rhs rest)
  | _, rest, .not e => ReadsBack 2 rest e
  | n, rest, .and a b =>
    ReadsBack 1 ("&&".toList :: tokens 2 b ++ closed (decide (1 < n)) rest) a ∧
      ReadsBack 2 (closed (decide (1 < n)) rest) b
  | n, rest, .or a b =>
    ReadsBack 0 ("||".toList :: tokens 1 b ++ closed (decide (0 < n)) rest) a ∧
      ReadsBack 1 (closed (decide (0 < n)) rest) b
  | _, rest, .group e => ReadsBack 0 (closed true rest) e

/-- What may follow an expression. -/
def Follows (rest : List Token) : Prop :=
  ∀ t ∈ rest.head?, t = "&&".toList ∨ t = "||".toList ∨ t = ")".toList

theorem Follows.not_isBinaryOp {rest : List Token} (h : Follows rest) :
    rest.head?.any isBinaryOp = false := by
  cases rest with
  | nil => rfl
  | cons t rest =>
    have hno : ∀ op ∈ ["&&".toList, "||".toList, ")".toList], isBinaryOp op = false := by decide
    rw [List.head?_cons, Option.any_some]
    refine hno t ?_
    rcases h t rfl with rfl | rfl | rfl <;> simp

/-! ## 3. Printed expressions are read back -/

section

variable {R : Type} {env : TestEnv R} {e a b : Expr Token} {rest : List Token}

theorem tokens_and (n : Nat) (a b : Expr Token) : tokens n (.and a b) =
    if 1 < n then "(".toList :: (tokens 1 a ++ "&&".toList :: tokens 2 b) ++ [")".toList]
    else tokens 1 a ++ "&&".toList :: tokens 2 b := by
  unfold tokens
  rw [print, paren]
  by_cases h : 1 < n <;> simp [h, Piece.token]

theorem tokens_or (n : Nat) (a b : Expr Token) : tokens n (.or a b) =
    if 0 < n then "(".toList :: (tokens 0 a ++ "||".toList :: tokens 1 b) ++ [")".toList]
    else tokens 0 a ++ "||".toList :: tokens 1 b := by
  unfold tokens
  rw [print, paren]
  by_cases h : 0 < n <;> simp [h, Piece.token]

theorem tokens_group (n : Nat) (e : Expr Token) :
    tokens n (.group e) = "(".toList :: tokens 0 e ++ [")".toList] := by
  simp [tokens, print, paren, Piece.token]

/-- A loop ends where its operator does not follow. -/
theorem evalAndFrom_stop {n : Nat} {d r : Evaluated} (hstop : d.rest.head? ≠ some "&&".toList)
    (h : evalAndFrom env n d = some r) : r = d := by
  cases n with
  | zero => cases h
  | succ n =>
    rw [evalAndFrom] at h
    split at h
    · next t rest hrest =>
      rw [hrest] at hstop
      rw [if_neg fun heq => hstop (congrArg some heq)] at h
      cases h
      rfl
    · cases h
      rfl

theorem evalOrFrom_stop {n : Nat} {d r : Evaluated} (hstop : d.rest.head? ≠ some "||".toList)
    (h : evalOrFrom env n d = some r) : r = d := by
  cases n with
  | zero => cases h
  | succ n =>
    rw [evalOrFrom] at h
    split at h
    · next t rest hrest =>
      rw [hrest] at hstop
      rw [if_neg fun heq => hstop (congrArg some heq)] at h
      cases h
      rfl
    · cases h
      rfl

/-- What the evaluator makes of an expression and what follows it, where it ends. -/
structure Reads (env : TestEnv R) (e : Expr Token) : Prop where
  not : ∀ n rest r, Follows rest → ReadsBack 2 rest e →
    evalNot env n (tokens 2 e ++ rest) = some r → r = ⟨value env e, rest, matched e⟩
  and : ∀ n rest r, Follows rest → ReadsBack 1 rest e →
    evalAnd env n (tokens 1 e ++ rest) = some r →
      ∃ m, evalAndFrom env m ⟨value env e, rest, matched e⟩ = some r
  or : ∀ n rest r, Follows rest → rest.head? ≠ some "&&".toList → ReadsBack 0 rest e →
    evalOr env n (tokens 0 e ++ rest) = some r →
      ∃ m, evalOrFrom env m ⟨value env e, rest, matched e⟩ = some r

/-- Where `&&` may stand, what binds more is read as where only `!` may stand. -/
theorem and_of_not {n : Nat} {r d : Evaluated} {ts : List Token}
    (hnot : ∀ n r, evalNot env n ts = some r → r = d) (h : evalAnd env n ts = some r) :
    ∃ m, evalAndFrom env m d = some r := by
  cases n with
  | zero => cases h
  | succ n =>
    rw [evalAnd, Option.bind_eq_some_iff] at h
    obtain ⟨first, hfirst, hmore⟩ := h
    cases hnot n first hfirst
    exact ⟨n, hmore⟩

/-- Where `||` may stand, what binds more is read as where `&&` may stand. -/
theorem or_of_and {n : Nat} {r d : Evaluated} {ts : List Token}
    (hstop : d.rest.head? ≠ some "&&".toList)
    (hand : ∀ n r, evalAnd env n ts = some r → ∃ m, evalAndFrom env m d = some r)
    (h : evalOr env n ts = some r) : ∃ m, evalOrFrom env m d = some r := by
  cases n with
  | zero => cases h
  | succ n =>
    rw [evalOr, Option.bind_eq_some_iff] at h
    obtain ⟨first, hfirst, hmore⟩ := h
    obtain ⟨m, hm⟩ := hand n first hfirst
    cases evalAndFrom_stop hstop hm
    exact ⟨n, hmore⟩

/-- What is printed and reads in the same way everywhere is read everywhere. -/
theorem reads_of_not (htokens : ∀ n, tokens n e = tokens 2 e)
    (hreads : ∀ n rest, ReadsBack n rest e ↔ ReadsBack 2 rest e)
    (hnot : ∀ n rest r, Follows rest → ReadsBack 2 rest e →
      evalNot env n (tokens 2 e ++ rest) = some r → r = ⟨value env e, rest, matched e⟩) :
    Reads env e := by
  have hand : ∀ n rest r, Follows rest → ReadsBack 2 rest e →
      evalAnd env n (tokens 2 e ++ rest) = some r →
        ∃ m, evalAndFrom env m ⟨value env e, rest, matched e⟩ = some r := by
    intro n rest r hfollows hback h
    exact and_of_not (fun n r => hnot n rest r hfollows hback) h
  refine ⟨hnot, fun n rest r hfollows hback h => ?_, fun n rest r hfollows hstop hback h => ?_⟩
  · rw [htokens] at h
    exact hand n rest r hfollows ((hreads 1 rest).mp hback) h
  · rw [htokens] at h
    exact or_of_and hstop (fun n r => hand n rest r hfollows ((hreads 0 rest).mp hback)) h

theorem follows_close : Follows (")".toList :: rest) := by
  rintro t ⟨⟩
  exact .inr (.inr rfl)

/-- An expression in parentheses. -/
theorem not_of_group {n : Nat} {r d : Evaluated} {ts : List Token}
    (hor : ∀ n r, evalOr env n (ts ++ ")".toList :: d.rest) = some r →
      ∃ m, evalOrFrom env m { d with rest := ")".toList :: d.rest } = some r)
    (h : evalNot env n ("(".toList :: ts ++ [")".toList] ++ d.rest) = some r) : r = d := by
  cases n with
  | zero => cases h
  | succ n =>
    rw [List.append_assoc, List.cons_append, evalNot, if_neg (by decide)] at h
    cases n with
    | zero => cases h
    | succ n =>
      rw [evalPrimary, if_pos rfl, Option.map_eq_some_iff] at h
      obtain ⟨inner, hinner, rfl⟩ := h
      obtain ⟨m, hm⟩ := hor n inner hinner
      cases evalOrFrom_stop (by simp) hm
      simp

/-- A test whose first token is no operator. -/
theorem evalNot_test {n : Nat} {t : Token} {ts : List Token} {r : Evaluated}
    (hneg : t ≠ "!".toList) (hopen : t ≠ "(".toList) (h : evalNot env n (t :: ts) = some r) :
    r = evalTest env (t :: ts) := by
  cases n with
  | zero => cases h
  | succ n =>
    rw [evalNot, if_neg hneg] at h
    cases n with
    | zero => cases h
    | succ n =>
      rw [evalPrimary, if_neg hopen] at h
      cases h
      rfl

theorem unaryTest_unary (op : UnaryOp) (t : Token) (h : Follows rest) :
    unaryTest (['-', op.1] :: t :: rest) = some (op.1, t, rest) := by
  obtain ⟨flag, hflag⟩ := op
  have hascii : ∀ c ∈ stringFlags ++ fileFlags, parseUnaryFlag ['-', c] = some c :=
    List.all_iff_forall_prop.mp (by decide)
  rw [unaryTest]
  dsimp only
  rw [hascii flag hflag]
  dsimp only
  split
  · rfl
  · next hstring =>
    have hfile : fileFlags.contains flag = true := by
      rcases List.mem_append.mp hflag with hmem | hmem
      · exact absurd (List.contains_iff_mem.mpr hmem) hstring
      · exact List.contains_iff_mem.mpr hmem
    rw [hfile, h.not_isBinaryOp]
    rfl

theorem collectRegexRhs_ends {rhs : Token} (h : RegexEnds rhs rest) :
    collectRegexRhs (rhs :: rest) = (rhs, rest) := by
  obtain ⟨hand, hor, hends⟩ := h
  rw [collectRegexRhs, if_neg (not_or.mpr ⟨hand, hor⟩)]
  cases rest with
  | nil => simp [collectRegexRhs]
  | cons t rest =>
    rw [collectRegexRhs, if_pos (hends t rfl)]
    simp

theorem evalTest_truthy {t : Token} (h : unaryTest (t :: rest) = none)
    (hop : rest.head?.any isBinaryOp = false) :
    evalTest env (t :: rest) = ⟨!t.isEmpty, rest, []⟩ := by
  cases rest with
  | nil =>
    unfold evalTest
    rw [h]
    rfl
  | cons op rest =>
    rw [List.head?_cons, Option.any_some] at hop
    unfold evalTest
    rw [h]
    dsimp only
    rw [hop]
    rfl

theorem evalTest_binary {lhs op : Token} (h : unaryTest (lhs :: op :: rest) = none)
    (hop : isBinaryOp op = true) : evalTest env (lhs :: op :: rest) =
      ⟨evalBinaryOp env lhs op (collectRhs op rest).1, (collectRhs op rest).2,
        rematches lhs op (collectRhs op rest).1⟩ := by
  unfold evalTest
  rw [h]
  dsimp only
  rw [if_pos hop]

theorem reads_str (t : Token) : Reads env (.str t) := by
  have hnot : ∀ n rest r, Follows rest → ReadsBack 2 rest (.str t) →
      evalNot env n (t :: rest) = some r → r = ⟨!t.isEmpty, rest, []⟩ := by
    intro n rest r hfollows ⟨hneg, hopen, hunary⟩ h
    rw [evalNot_test hneg hopen h]
    exact evalTest_truthy hunary hfollows.not_isBinaryOp
  exact reads_of_not (fun _ => rfl) (fun _ _ => Iff.rfl) hnot

theorem reads_unary (op : UnaryOp) (t : Token) : Reads env (.unary op t) := by
  have hnot : ∀ n rest r, Follows rest → ReadsBack 2 rest (.unary op t) →
      evalNot env n (['-', op.1] :: t :: rest) = some r → r = ⟨evalUnary env op.1 t, rest, []⟩ := by
    intro n rest r hfollows _ h
    rw [evalNot_test (by simp) (by simp) h, evalTest, unaryTest_unary op t hfollows]
  exact reads_of_not (fun _ => rfl) (fun _ _ => Iff.rfl) hnot

theorem reads_binary (lhs : Token) (op : BinaryOp) (rhs : Token) :
    Reads env (.binary lhs op rhs) := by
  have hnot : ∀ n rest r, Follows rest → ReadsBack 2 rest (.binary lhs op rhs) →
      evalNot env n (lhs :: op.1 :: rhs :: rest) = some r →
        r = ⟨evalBinaryOp env lhs op.1 rhs, rest, rematches lhs op.1 rhs⟩ := by
    intro n rest r _ ⟨⟨hneg, hopen, hunary⟩, hregex⟩ h
    have hrhs : collectRhs op.1 (rhs :: rest) = (rhs, rest) := by
      rw [collectRhs]
      split
      · next hop => exact collectRegexRhs_ends (hregex hop)
      · rfl
    rw [evalNot_test hneg hopen h,
      evalTest_binary hunary (List.contains_iff_mem.mpr op.2), hrhs]
  exact reads_of_not (fun _ => rfl) (fun _ _ => Iff.rfl) hnot

theorem reads_not (h : Reads env e) : Reads env (.not e) := by
  have hnot : ∀ n rest r, Follows rest → ReadsBack 2 rest (.not e) →
      evalNot env n ("!".toList :: tokens 2 e ++ rest) = some r →
        r = ⟨!value env e, rest, matched e⟩ := by
    intro n rest r hfollows hreads heval
    cases n with
    | zero => cases heval
    | succ n =>
      rw [List.cons_append, evalNot, if_pos rfl, Option.map_eq_some_iff] at heval
      obtain ⟨inner, hinner, rfl⟩ := heval
      rw [h.not n rest inner hfollows hreads hinner]
  exact reads_of_not (fun _ => rfl) (fun _ _ => Iff.rfl) hnot

theorem reads_group (h : Reads env e) : Reads env (.group e) := by
  have hnot : ∀ n rest r, Follows rest → ReadsBack 2 rest (.group e) →
      evalNot env n (tokens 2 (.group e) ++ rest) = some r → r = ⟨value env e, rest, matched e⟩ := by
    intro n rest r _ hback heval
    rw [tokens_group] at heval
    refine @not_of_group R env n r ⟨value env e, rest, matched e⟩ (tokens 0 e) ?_ heval
    exact fun n r => h.or n (")".toList :: rest) r follows_close (by simp) hback
  exact reads_of_not (fun n => by rw [tokens_group, tokens_group]) (fun _ _ => Iff.rfl) hnot

/-- The right side of `&&` after the left one. -/
theorem andFrom_step (hb : Reads env b) {m : Nat} {r d : Evaluated} (hfollows : Follows rest)
    (hback : ReadsBack 2 rest b) (hd : d.rest = "&&".toList :: tokens 2 b ++ rest)
    (h : evalAndFrom env m d = some r) :
    ∃ m, evalAndFrom env m ⟨d.value && value env b, rest, d.matched ++ matched b⟩ = some r := by
  cases m with
  | zero => cases h
  | succ m =>
    rw [evalAndFrom, hd, List.cons_append] at h
    dsimp only at h
    rw [if_pos rfl, Option.bind_eq_some_iff] at h
    obtain ⟨right, hright, hmore⟩ := h
    cases hb.not m rest right hfollows hback hright
    exact ⟨m, hmore⟩

theorem orFrom_step (hb : Reads env b) {m : Nat} {r d : Evaluated} (hfollows : Follows rest)
    (hstop : rest.head? ≠ some "&&".toList) (hback : ReadsBack 1 rest b)
    (hd : d.rest = "||".toList :: tokens 1 b ++ rest) (h : evalOrFrom env m d = some r) :
    ∃ m, evalOrFrom env m ⟨d.value || value env b, rest, d.matched ++ matched b⟩ = some r := by
  cases m with
  | zero => cases h
  | succ m =>
    rw [evalOrFrom, hd, List.cons_append] at h
    dsimp only at h
    rw [if_pos rfl, Option.bind_eq_some_iff] at h
    obtain ⟨right, hright, hmore⟩ := h
    obtain ⟨m', hm'⟩ := hb.and m rest right hfollows hback hright
    cases evalAndFrom_stop hstop hm'
    exact ⟨m, hmore⟩

theorem reads_and (ha : Reads env a) (hb : Reads env b) : Reads env (.and a b) := by
  have hand : ∀ n rest r, Follows rest → ReadsBack 1 rest (.and a b) →
      evalAnd env n (tokens 1 (.and a b) ++ rest) = some r →
        ∃ m, evalAndFrom env m ⟨value env (.and a b), rest, matched (.and a b)⟩ = some r := by
    intro n rest r hfollows ⟨hbacka, hbackb⟩ h
    rw [tokens_and, if_neg (Nat.lt_irrefl 1), List.append_assoc] at h
    have hfollows' : Follows ("&&".toList :: tokens 2 b ++ rest) := by
      rintro t ⟨⟩
      exact .inl rfl
    obtain ⟨m, hm⟩ := ha.and n _ r hfollows' hbacka h
    exact andFrom_step hb hfollows hbackb rfl hm
  have hor : ∀ n rest r, Follows rest → rest.head? ≠ some "&&".toList →
      ReadsBack 1 rest (.and a b) → evalOr env n (tokens 1 (.and a b) ++ rest) = some r →
        ∃ m, evalOrFrom env m ⟨value env (.and a b), rest, matched (.and a b)⟩ = some r := by
    intro n rest r hfollows hstop hback h
    exact or_of_and hstop (fun n r => hand n rest r hfollows hback) h
  have hzero : tokens 0 (.and a b) = tokens 1 (.and a b) := by
    rw [tokens_and, tokens_and]
    rfl
  refine ⟨fun n rest r hfollows hback h => ?_, hand, fun n rest r hfollows hstop hback h => ?_⟩
  · have htwo : tokens 2 (.and a b) = "(".toList :: tokens 1 (.and a b) ++ [")".toList] := by
      rw [tokens_and, tokens_and]
      rfl
    rw [htwo] at h
    refine @not_of_group R env n r ⟨value env (.and a b), rest, matched (.and a b)⟩
      (tokens 1 (.and a b)) ?_ h
    exact fun n r => hor n (")".toList :: rest) r follows_close (by simp) hback
  · rw [hzero] at h
    exact hor n rest r hfollows hstop hback h

theorem reads_or (ha : Reads env a) (hb : Reads env b) : Reads env (.or a b) := by
  have hor : ∀ n rest r, Follows rest → rest.head? ≠ some "&&".toList →
      ReadsBack 0 rest (.or a b) → evalOr env n (tokens 0 (.or a b) ++ rest) = some r →
        ∃ m, evalOrFrom env m ⟨value env (.or a b), rest, matched (.or a b)⟩ = some r := by
    intro n rest r hfollows hstop ⟨hbacka, hbackb⟩ h
    rw [tokens_or, if_neg (Nat.lt_irrefl 0), List.append_assoc] at h
    have hfollows' : Follows ("||".toList :: tokens 1 b ++ rest) := by
      rintro t ⟨⟩
      exact .inr (.inl rfl)
    obtain ⟨m, hm⟩ := ha.or n _ r hfollows' (by simp) hbacka h
    exact orFrom_step hb hfollows hstop hbackb rfl hm
  have hnot : ∀ n rest r, Follows rest → ReadsBack 2 rest (.or a b) →
      evalNot env n (tokens 2 (.or a b) ++ rest) = some r →
        r = ⟨value env (.or a b), rest, matched (.or a b)⟩ := by
    intro n rest r _ hback h
    have htwo : tokens 2 (.or a b) = "(".toList :: tokens 0 (.or a b) ++ [")".toList] := by
      rw [tokens_or, tokens_or]
      rfl
    rw [htwo] at h
    refine @not_of_group R env n r ⟨value env (.or a b), rest, matched (.or a b)⟩
      (tokens 0 (.or a b)) ?_ h
    exact fun n r => hor n (")".toList :: rest) r follows_close (by simp) hback
  have hone : tokens 1 (.or a b) = tokens 2 (.or a b) := by
    rw [tokens_or, tokens_or]
    rfl
  refine ⟨hnot, fun n rest r hfollows hback h => ?_, hor⟩
  rw [hone] at h
  exact and_of_not (fun n r => hnot n rest r hfollows hback) h

theorem reads (e : Expr Token) : Reads env e := by
  induction e with
  | str t => exact reads_str t
  | unary op t => exact reads_unary op t
  | binary lhs op rhs => exact reads_binary lhs op rhs
  | not e ih => exact reads_not ih
  | and a b iha ihb => exact reads_and iha ihb
  | or a b iha ihb => exact reads_or iha ihb
  | group e ih => exact reads_group ih

/-- **A printed expression is evaluated as what it stands for.** -/
theorem evaluate_tokens (env : TestEnv R) (e : Expr Token) (h : ReadsBack 0 [] e) :
    evaluate env (tokens 0 e) = some ⟨value env e, [], matched e⟩ := by
  obtain ⟨r, hr⟩ := @evaluate_ends R env (tokens 0 e)
  have heval : evalOr env (5 * (tokens 0 e).length + 5) (tokens 0 e ++ []) = some r := by
    rw [List.append_nil]
    exact hr
  obtain ⟨m, hm⟩ := (reads e).or _ [] r (by rintro t ⟨⟩) (by simp) h heval
  rw [hr, evalOrFrom_stop (by simp) hm]

end

/-! ## 4. The command -/

/-- The words of a printed expression. -/
def words (n : Nat) (e : Expr Word) : List Word := (e.print n).map Piece.word

section

variable {R W P : Type} (h : Host W P) (r : Recs W P)

/-- All operands of an expression, expanded from left to right. -/
def expandAll : Expr Word → Runtime W → Run W (Expr Token × Runtime W)
  | .str w, s => do
    let (t, s) ← dblBracketExpand h r w s
    return (.str t, s)
  | .unary op w, s => do
    let (t, s) ← dblBracketExpand h r w s
    return (.unary op t, s)
  | .binary lhs op rhs, s => do
    let (l, s) ← dblBracketExpand h r lhs s
    let (t, s) ← dblBracketExpand h r rhs s
    return (.binary l op t, s)
  | .not e, s => do
    let (e, s) ← expandAll e s
    return (.not e, s)
  | .and a b, s => do
    let (a, s) ← expandAll a s
    let (b, s) ← expandAll b s
    return (.and a b, s)
  | .or a b, s => do
    let (a, s) ← expandAll a s
    let (b, s) ← expandAll b s
    return (.or a b, s)
  | .group e, s => do
    let (e, s) ← expandAll e s
    return (.group e, s)

variable {R : Type} (env : TestEnv R)

/-- The value of an expression and its matches of `=~`, where the operands of a test are
    expanded when it is reached, and those of a skipped test are not. -/
def evalSkipping : Expr Word → Runtime W → Run W ((Bool × List Rematch) × Runtime W)
  | .str w, s => do
    let (t, s) ← dblBracketExpand h r w s
    return ((!t.isEmpty, []), s)
  | .unary op w, s => do
    let (t, s) ← dblBracketExpand h r w s
    return ((evalUnary env op.1 t, []), s)
  | .binary lhs op rhs, s => do
    let (l, s) ← dblBracketExpand h r lhs s
    let (t, s) ← dblBracketExpand h r rhs s
    return ((evalBinaryOp env l op.1 t, rematches l op.1 t), s)
  | .not e, s => do
    let (v, s) ← evalSkipping e s
    return ((!v.1, v.2), s)
  | .and a b, s => do
    let (v, s) ← evalSkipping a s
    if v.1 then
      let (v', s) ← evalSkipping b s
      return ((v'.1, v.2 ++ v'.2), s)
    else return (v, s)
  | .or a b, s => do
    let (v, s) ← evalSkipping a s
    if v.1 then return (v, s)
    else
      let (v', s) ← evalSkipping b s
      return ((v'.1, v.2 ++ v'.2), s)
  | .group e, s => evalSkipping e s

/-- The expansion of the operands changes nothing, and no test of them is a match. -/
def Silent (e : Expr Word) (s : Runtime W) : Prop :=
  ∃ e', expandAll h r e s = .ok (e', s) ∧ matched e' = []

/-- What is skipped is silent. -/
def SkipsSilent : Expr Word → Runtime W → Prop
  | .str _, _ => True
  | .unary _ _, _ => True
  | .binary _ _ _, _ => True
  | .not e, s => SkipsSilent e s
  | .and a b, s => SkipsSilent a s ∧ ∀ a' t, expandAll h r a s = .ok (a', t) →
      if value env a' then SkipsSilent b t else Silent h r b t
  | .or a b, s => SkipsSilent a s ∧ ∀ a' t, expandAll h r a s = .ok (a', t) →
      if value env a' then Silent h r b t else SkipsSilent b t
  | .group e, s => SkipsSilent e s

end

section

variable {R W P : Type} {h : Host W P} {r : Recs W P} {env : TestEnv R}

/-- Where what is skipped is silent, expanding everything first makes no difference. -/
theorem evalSkipping_eq {e : Expr Word} {e' : Expr Token} {s t : Runtime W}
    (hall : expandAll h r e s = .ok (e', t)) (hskips : SkipsSilent h r env e s) :
    evalSkipping h r env e s = .ok ((value env e', matched e'), t) := by
  induction e generalizing e' s t with
  | str w | unary op w =>
    obtain ⟨⟨text, u⟩, htext, hall⟩ := bind_eq_ok.mp hall
    cases hall
    exact bind_eq_ok.mpr ⟨_, htext, rfl⟩
  | binary lhs op rhs =>
    obtain ⟨⟨left, u⟩, hleft, hall⟩ := bind_eq_ok.mp hall
    obtain ⟨⟨right, v⟩, hright, hall⟩ := bind_eq_ok.mp hall
    cases hall
    exact bind_eq_ok.mpr ⟨_, hleft, bind_eq_ok.mpr ⟨_, hright, rfl⟩⟩
  | not e ih =>
    obtain ⟨⟨inner, u⟩, hinner, hall⟩ := bind_eq_ok.mp hall
    cases hall
    exact bind_eq_ok.mpr ⟨_, ih hinner hskips, rfl⟩
  | and a b iha ihb =>
    obtain ⟨⟨left, u⟩, hleft, hall⟩ := bind_eq_ok.mp hall
    obtain ⟨⟨right, v⟩, hright, hall⟩ := bind_eq_ok.mp hall
    cases hall
    have hrest := hskips.2 left u hleft
    refine bind_eq_ok.mpr ⟨_, iha hleft hskips.1, ?_⟩
    cases hvalue : value env left with
    | true =>
      rw [hvalue, if_pos rfl] at hrest
      dsimp only
      rw [if_pos rfl, value, hvalue]
      exact bind_eq_ok.mpr ⟨_, ihb hright hrest, rfl⟩
    | false =>
      rw [hvalue, if_neg Bool.false_ne_true] at hrest
      obtain ⟨b', hb, hsilent⟩ := hrest
      cases hright.symm.trans hb
      dsimp only
      rw [if_neg Bool.false_ne_true, value, hvalue, matched, hsilent, List.append_nil]
      rfl
  | or a b iha ihb =>
    obtain ⟨⟨left, u⟩, hleft, hall⟩ := bind_eq_ok.mp hall
    obtain ⟨⟨right, v⟩, hright, hall⟩ := bind_eq_ok.mp hall
    cases hall
    have hrest := hskips.2 left u hleft
    refine bind_eq_ok.mpr ⟨_, iha hleft hskips.1, ?_⟩
    cases hvalue : value env left with
    | true =>
      rw [hvalue, if_pos rfl] at hrest
      obtain ⟨b', hb, hsilent⟩ := hrest
      cases hright.symm.trans hb
      dsimp only
      rw [if_pos rfl, value, hvalue, matched, hsilent, List.append_nil]
      rfl
    | false =>
      rw [hvalue, if_neg Bool.false_ne_true] at hrest
      dsimp only
      rw [if_neg Bool.false_ne_true, value, hvalue]
      exact bind_eq_ok.mpr ⟨_, ihb hright hrest, rfl⟩
  | group e ih =>
    obtain ⟨⟨inner, u⟩, hinner, hall⟩ := bind_eq_ok.mp hall
    cases hall
    have hread := ih hinner hskips
    exact hread

end

section

variable {R W P : Type} {h : Host W P} {r : Recs W P} {x : Expander} {files : W → Globs.Files}
  {depth : Nat}

theorem expandTokens_cons {w : Word} {ws : List Word} {s t u : Runtime W} {first : Token}
    {rest : List Token} (hw : dblBracketExpand h r w s = .ok (first, t))
    (hws : expandTokens h r ws t = .ok (rest, u)) :
    expandTokens h r (w :: ws) s = .ok (first :: rest, u) := by
  rw [expandTokens, hw]
  change (expandTokens h r ws t >>= _) = _
  rw [hws]
  rfl

theorem expandTokens_append {ws ws' : List Word} {s t u : Runtime W} {ts ts' : List Token}
    (hws : expandTokens h r ws s = .ok (ts, t)) (hws' : expandTokens h r ws' t = .ok (ts', u)) :
    expandTokens h r (ws ++ ws') s = .ok (ts ++ ts', u) := by
  induction ws generalizing s ts with
  | nil =>
    cases hws
    exact hws'
  | cons w ws ih =>
    rw [expandTokens] at hws
    obtain ⟨⟨first, v⟩, hfirst, hws⟩ := bind_eq_ok.mp hws
    obtain ⟨⟨rest, v'⟩, hrest, hws⟩ := bind_eq_ok.mp hws
    cases hws
    exact expandTokens_cons hfirst (ih hrest)

/-- An operator stands for itself. -/
theorem dblBracketExpand_op {t : Token} (ht : Expand.isTildeText t = false) (s : Runtime W) :
    dblBracketExpand (h.shell x files depth) r ⟨[.literal t]⟩ s = .ok (t, s) := by
  have hword : Expand.expandWord x ⟨[.literal t]⟩ s.state = ([], t) := by
    simp [Expand.expandWord, Expand.expandParts, Expand.expandPart, Expand.expandTildeText, ht]
  have hops : s.applyOps [] = .ok s := by
    simp [Runtime.applyOps, Runtime.noteWrites, ShellState.leaking, ShellState.raises,
      ShellState.applyAll]
  have hresolve : Interp.resolveCommandSubst (h.shell x files depth) r [⟨[.literal t]⟩] s =
      .ok ([⟨[.literal t]⟩], s) := rfl
  have hexpand : (h.shell x files depth).expandWord ⟨[.literal t]⟩ s.state =
      ([], String.ofList t) := by
    change (_, String.ofList _) = _
    rw [hword]
  unfold dblBracketExpand
  rw [hresolve]
  dsimp only [bind, Except.bind, List.headD_cons]
  rw [hexpand]
  dsimp only
  rw [hops]
  dsimp only [pure, Except.pure]
  rw [String.toList_ofList]

/-- The words between parentheses. -/
theorem expandTokens_paren {needed : Bool} {ps : List (Piece Word)} {ps' : List (Piece Token)}
    {s t : Runtime W} (h' : expandTokens (h.shell x files depth) r (ps.map Piece.word) s =
      .ok (ps'.map Piece.token, t)) :
    expandTokens (h.shell x files depth) r ((paren needed ps).map Piece.word) s =
      .ok ((paren needed ps').map Piece.token, t) := by
  cases needed with
  | false => exact h'
  | true =>
    rw [paren, if_pos rfl, paren, if_pos rfl, List.map_append, List.map_cons, List.map_append,
      List.map_cons]
    refine expandTokens_append (expandTokens_cons (dblBracketExpand_op (by decide) s) h') ?_
    exact expandTokens_cons (dblBracketExpand_op (by decide) t) rfl

/-- The words of a printed expression are expanded to the texts of the expanded expression. -/
theorem expandTokens_print {e : Expr Word} {e' : Expr Token} {s t : Runtime W} (n : Nat)
    (hall : expandAll (h.shell x files depth) r e s = .ok (e', t)) :
    expandTokens (h.shell x files depth) r ((e.print n).map Piece.word) s =
      .ok ((e'.print n).map Piece.token, t) := by
  have hops : ∀ op : BinaryOp, Expand.isTildeText op.1 = false := by
    have hall : ∀ op ∈ binaryOps, Expand.isTildeText op = false := by decide
    exact fun op => hall op.1 op.2
  have hflags : ∀ op : UnaryOp, Expand.isTildeText ['-', op.1] = false := by
    intro op
    simp [Expand.isTildeText]
  induction e generalizing e' s t n with
  | str w =>
    rw [expandAll] at hall
    obtain ⟨⟨text, u⟩, htext, hall⟩ := bind_eq_ok.mp hall
    cases hall
    exact expandTokens_cons htext rfl
  | unary op w =>
    rw [expandAll] at hall
    obtain ⟨⟨text, u⟩, htext, hall⟩ := bind_eq_ok.mp hall
    cases hall
    exact expandTokens_cons (dblBracketExpand_op (hflags op) s) (expandTokens_cons htext rfl)
  | binary lhs op rhs =>
    rw [expandAll] at hall
    obtain ⟨⟨left, u⟩, hleft, hall⟩ := bind_eq_ok.mp hall
    obtain ⟨⟨right, v⟩, hright, hall⟩ := bind_eq_ok.mp hall
    cases hall
    exact expandTokens_cons hleft (expandTokens_cons (dblBracketExpand_op (hops op) u)
      (expandTokens_cons hright rfl))
  | not e ih =>
    rw [expandAll] at hall
    obtain ⟨⟨inner, u⟩, hinner, hall⟩ := bind_eq_ok.mp hall
    cases hall
    exact expandTokens_cons (dblBracketExpand_op (by decide) s) (ih 2 hinner)
  | and a b iha ihb =>
    rw [expandAll] at hall
    obtain ⟨⟨left, u⟩, hleft, hall⟩ := bind_eq_ok.mp hall
    obtain ⟨⟨right, v⟩, hright, hall⟩ := bind_eq_ok.mp hall
    cases hall
    refine expandTokens_paren ?_
    rw [List.map_append, List.map_append]
    exact expandTokens_append (iha 1 hleft)
      (expandTokens_cons (dblBracketExpand_op (by decide) u) (ihb 2 hright))
  | or a b iha ihb =>
    rw [expandAll] at hall
    obtain ⟨⟨left, u⟩, hleft, hall⟩ := bind_eq_ok.mp hall
    obtain ⟨⟨right, v⟩, hright, hall⟩ := bind_eq_ok.mp hall
    cases hall
    refine expandTokens_paren ?_
    rw [List.map_append, List.map_append]
    exact expandTokens_append (iha 0 hleft)
      (expandTokens_cons (dblBracketExpand_op (by decide) u) (ihb 1 hright))
  | group e ih =>
    rw [expandAll] at hall
    obtain ⟨⟨inner, u⟩, hinner, hall⟩ := bind_eq_ok.mp hall
    cases hall
    exact expandTokens_paren (ih 0 hinner)

end

section

variable {R W P : Type} {h : Host W P} {r : Recs W P} {x : Expander} {files : W → Globs.Files}
  {depth : Nat} {fs : W → MemoryFs R} {toLowercase : List Char → List Char}

/-- The command gives the value of its expression and writes the matches. -/
theorem evalDoubleBracket_of_readsBack {e : Expr Word} {e' : Expr Token} {s t : Runtime W}
    (hall : expandAll (h.shell x files depth) r e s = .ok (e', t)) (hback : ReadsBack 0 [] e')
    (hpanic : none ∉ e'.matched) :
    evalDoubleBracket (h.shell x files depth) r fs toLowercase (e.words 0) s =
      (t.applyOps (e'.matched.flatMap rematchOps)).map fun u =>
        (some (e'.value (.of fs toLowercase t)), u) := by
  have htokens := expandTokens_print 0 hall
  have heval := evaluate_tokens (.of fs toLowercase t) e' hback
  unfold tokens at heval
  unfold evalDoubleBracket words
  rw [htokens]
  dsimp only [bind, Except.bind]
  rw [heval]
  dsimp only
  rw [if_neg hpanic]
  cases t.applyOps (e'.matched.flatMap rematchOps) with
  | error u => rfl
  | ok u => rfl

end

end Expr

end Wasmsh.DblBracket

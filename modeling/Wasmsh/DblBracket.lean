import Wasmsh.Compound
import Wasmsh.MemoryFs
import Wasmsh.Regex
import Wasmsh.ShellHost

/-!
# `[[ ]]`

`eval_double_bracket` expands all words of the command and hands the texts to the recursive
descent of `wasmsh-runtime/src/dbl_bracket.rs`, which tells operators from operands by their text.
-/

namespace Wasmsh.DblBracket

open Globs Fs

/-! ## 1. Tests -/

/-- A text that the evaluator reads as an operator or as an operand. -/
abbrev Token := List Char

/-- What the tests see of the shell. -/
structure TestEnv (R : Type) where
  fs : MemoryFs R
  cwd : Path
  nocasematch : Bool
  toLowercase : List Char → List Char

/-- The tests of a string and of a file that `dbl_bracket_try_unary` knows. -/
def stringFlags : List Char := ['z', 'n']

def fileFlags : List Char :=
  ['f', 'd', 'e', 's', 'r', 'w', 'x', 'L', 'h', 'p', 'S', 't', 'N', 'O', 'G']

/-- The operators of `is_binary_op`. -/
def binaryOps : List Token :=
  ["==".toList, "!=".toList, "=~".toList, "=".toList, "<".toList, ">".toList, "-eq".toList,
    "-ne".toList, "-lt".toList, "-le".toList, "-gt".toList, "-ge".toList, "-ef".toList,
    "-nt".toList, "-ot".toList]

def isBinaryOp (t : Token) : Bool := binaryOps.contains t

/-- `resolve_test_path`. -/
def resolveTestPath (cwd path : Path) : Path := resolveCwdPath cwd path

section

variable {R : Type} (env : TestEnv R)

/-- `eval_file_test`. -/
def evalFileTest (flag : Char) (path : Path) : Bool :=
  if flag = 't' then path == ['0']
  else
    match env.fs.stat (resolveTestPath env.cwd path) with
    | .error _ => false
    | .ok m =>
      if flag = 'f' then !m.isDir
      else if flag = 'd' then m.isDir
      else if flag = 's' ∨ flag = 'N' then decide (0 < m.size)
      else ['e', 'r', 'w', 'x', 'O', 'G'].contains flag

/-- The tests of `dbl_bracket_eval_string_test` and `eval_file_test`. -/
def evalUnary (flag : Char) (arg : Token) : Bool :=
  if flag = 'z' then arg.isEmpty
  else if flag = 'n' then !arg.isEmpty
  else evalFileTest env flag arg

/-- `glob_cmp`. -/
def globCmp (toLowercase : List Char → List Char) (nocasematch : Bool) (lhs rhs : Token) : Bool :=
  if nocasematch then
    globMatchInner (Utf8.encode (toLowercase rhs)) (Utf8.encode (toLowercase lhs))
  else globMatchInner (Utf8.encode rhs) (Utf8.encode lhs)

/-- `eval_int_cmp`. -/
def evalIntCmp (lhs op rhs : Token) : Bool :=
  let a := (Braces.parseI64 (trim lhs)).getD 0
  let b := (Braces.parseI64 (trim rhs)).getD 0
  if op = "-eq".toList then a == b
  else if op = "-ne".toList then a != b
  else if op = "-lt".toList then decide (a < b)
  else if op = "-le".toList then decide (a ≤ b)
  else if op = "-gt".toList then decide (b < a)
  else if op = "-ge".toList then decide (b ≤ a)
  else false

/-- `eval_binary_op`, but for what `=~` leaves in `BASH_REMATCH`. -/
def evalBinaryOp (lhs op rhs : Token) : Bool :=
  if op = "==".toList ∨ op = "=".toList then globCmp env.toLowercase env.nocasematch lhs rhs
  else if op = "!=".toList then !globCmp env.toLowercase env.nocasematch lhs rhs
  else if op = "=~".toList then
    match Regex.regexMatchWithCaptures lhs rhs with
    | some (some _) => true
    | _ => false
  else if op = "<".toList then decide (lhs < rhs)
  else if op = ">".toList then decide (rhs < lhs)
  else if op = "-ef".toList then resolveTestPath env.cwd lhs == resolveTestPath env.cwd rhs
  else if op = "-nt".toList then evalFileTest env 'e' lhs && !evalFileTest env 'e' rhs
  else if op = "-ot".toList then !evalFileTest env 'e' lhs && evalFileTest env 'e' rhs
  else evalIntCmp lhs op rhs

end

/-- A match of `=~`: the captures that go to `BASH_REMATCH`, none of them when the text does not
    match; no value is a panic. -/
abbrev Rematch := Option (Option (List (List Char)))

/-- The matches of a binary test. -/
def rematches (lhs op rhs : Token) : List Rematch :=
  if op = "=~".toList then [Regex.regexMatchWithCaptures lhs rhs] else []

/-! ## 2. The evaluator -/

/-- What a function of the evaluator leaves: its value, the tokens that are left, and the matches of
    `=~` on the way. -/
structure Evaluated where
  value : Bool
  rest : List Token
  matched : List Rematch
  deriving DecidableEq, Repr

/-- `dbl_bracket_parse_unary_flag`. -/
def parseUnaryFlag : Token → Option Char
  | ['-', c] => if c.toNat < 0x80 then some c else none
  | _ => none

/-- The flag of a unary test at the start of the tokens: there is an operand, and it is not the left
    side of a binary operator. -/
def unaryTest : List Token → Option (Char × Token × List Token)
  | op :: arg :: rest =>
    match parseUnaryFlag op with
    | none => none
    | some flag =>
      if stringFlags.contains flag then some (flag, arg, rest)
      else if fileFlags.contains flag && !rest.head?.any isBinaryOp then some (flag, arg, rest)
      else none
  | _ => none

/-- `dbl_bracket_collect_regex_rhs`. -/
def collectRegexRhs : List Token → Token × List Token
  | [] => ([], [])
  | t :: ts =>
    if t = "&&".toList ∨ t = "||".toList then ([], t :: ts)
    else
      let more := collectRegexRhs ts
      (t ++ more.1, more.2)

/-- `dbl_bracket_collect_rhs`. -/
def collectRhs (op : Token) : List Token → Token × List Token
  | [] => ([], [])
  | t :: ts => if op = "=~".toList then collectRegexRhs (t :: ts) else (t, ts)

/-- `dbl_bracket_take_truthy_token`. -/
def takeTruthyToken : List Token → Evaluated
  | [] => ⟨false, [], []⟩
  | t :: ts => ⟨!t.isEmpty, ts, []⟩

section

variable {R : Type} (env : TestEnv R)

/-- `dbl_bracket_eval_primary` where no group starts. -/
def evalTest (tokens : List Token) : Evaluated :=
  match unaryTest tokens with
  | some (flag, arg, rest) => ⟨evalUnary env flag arg, rest, []⟩
  | none =>
    match tokens with
    | lhs :: op :: rest =>
      if isBinaryOp op then
        let rhs := collectRhs op rest
        ⟨evalBinaryOp env lhs op rhs.1, rhs.2, rematches lhs op rhs.1⟩
      else takeTruthyToken tokens
    | _ => takeTruthyToken tokens

mutual

/-- `dbl_bracket_eval_or`.  The first argument bounds the depth of the calls. -/
def evalOr : Nat → List Token → Option Evaluated
  | 0, _ => none
  | n + 1, tokens => (evalAnd n tokens).bind (evalOrFrom n)

/-- The loop of `dbl_bracket_eval_or`. -/
def evalOrFrom : Nat → Evaluated → Option Evaluated
  | 0, _ => none
  | n + 1, done =>
    match done.rest with
    | t :: rest =>
      if t = "||".toList then
        (evalAnd n rest).bind fun rhs =>
          evalOrFrom n ⟨done.value || rhs.value, rhs.rest, done.matched ++ rhs.matched⟩
      else some done
    | [] => some done

/-- `dbl_bracket_eval_and`. -/
def evalAnd : Nat → List Token → Option Evaluated
  | 0, _ => none
  | n + 1, tokens => (evalNot n tokens).bind (evalAndFrom n)

/-- The loop of `dbl_bracket_eval_and`. -/
def evalAndFrom : Nat → Evaluated → Option Evaluated
  | 0, _ => none
  | n + 1, done =>
    match done.rest with
    | t :: rest =>
      if t = "&&".toList then
        (evalNot n rest).bind fun rhs =>
          evalAndFrom n ⟨done.value && rhs.value, rhs.rest, done.matched ++ rhs.matched⟩
      else some done
    | [] => some done

/-- `dbl_bracket_eval_not`. -/
def evalNot : Nat → List Token → Option Evaluated
  | 0, _ => none
  | n + 1, tokens =>
    match tokens with
    | t :: rest =>
      if t = "!".toList then (evalNot n rest).map fun e => { e with value := !e.value }
      else evalPrimary n tokens
    | [] => evalPrimary n tokens

/-- `dbl_bracket_eval_primary`, with the group of `dbl_bracket_try_group`. -/
def evalPrimary : Nat → List Token → Option Evaluated
  | 0, _ => none
  | n + 1, tokens =>
    match tokens with
    | t :: rest =>
      if t = "(".toList then
        (evalOr n rest).map fun e =>
          if e.rest.head? = some ")".toList then { e with rest := e.rest.tail } else e
      else some (evalTest env tokens)
    | [] => some (evalTest env tokens)

end

/-- The evaluator on all tokens, with a bound that is never reached. -/
def evaluate (tokens : List Token) : Option Evaluated := evalOr env (5 * tokens.length + 5) tokens

end

/-! ## 3. The command -/

/-- The environment of the tests in a state. -/
def TestEnv.of {R W : Type} (fs : W → MemoryFs R) (toLowercase : List Char → List Char)
    (s : Runtime W) : TestEnv R :=
  ⟨fs s.world, s.state.cwd.toList, s.state.flag "SHOPT_nocasematch", toLowercase⟩

/-- What `eval_regex_match` writes. -/
def rematchOps : Rematch → List StateOp
  | none => []
  | some captures => .initIndexedArray "BASH_REMATCH" ::
      (captures.getD []).zipIdx.map fun c =>
        .setArrayElement "BASH_REMATCH" (toString c.2) (String.ofList c.1)

section

variable {R W P : Type} (h : Host W P) (r : Recs W P)

/-- `dbl_bracket_expand`. -/
def dblBracketExpand (w : Word) (s : Runtime W) : Run W (Token × Runtime W) := do
  let (ws, s) ← Interp.resolveCommandSubst h r [w] s
  let expanded := h.expandWord (ws.headD ⟨[]⟩) s.state
  let s ← s.applyOps expanded.1
  return (expanded.2.toList, s)

/-- The words of `eval_double_bracket`, expanded. -/
def expandTokens : List Word → Runtime W → Run W (List Token × Runtime W)
  | [], s => .ok ([], s)
  | w :: ws, s => do
    let (t, s) ← dblBracketExpand h r w s
    let (ts, s) ← expandTokens ws s
    return (t :: ts, s)

/-- `eval_double_bracket`; no value is a panic. -/
def evalDoubleBracket (fs : W → MemoryFs R) (toLowercase : List Char → List Char)
    (words : List Word) (s : Runtime W) : Run W (Option Bool × Runtime W) := do
  let (tokens, s) ← expandTokens h r words s
  match evaluate (TestEnv.of fs toLowercase s) tokens with
  | none => return (none, s)
  | some e =>
    if none ∈ e.matched then return (none, s)
    else
      let s ← s.applyOps (e.matched.flatMap rematchOps)
      return (some e.value, s)

end

/-! ## 4. The evaluator ends -/

section

variable {R : Type} {env : TestEnv R}

theorem length_collectRegexRhs (ts : List Token) : (collectRegexRhs ts).2.length ≤ ts.length := by
  induction ts with
  | nil => exact Nat.le_refl _
  | cons t ts ih =>
    unfold collectRegexRhs
    split
    · exact Nat.le_refl _
    · exact ih.trans (Nat.le_succ _)

theorem length_collectRhs (op : Token) (ts : List Token) :
    (collectRhs op ts).2.length ≤ ts.length := by
  unfold collectRhs
  split
  · exact Nat.le_refl _
  · split
    · exact length_collectRegexRhs _
    · exact Nat.le_succ _

theorem length_unaryTest {ts rest : List Token} {flag : Char} {arg : Token}
    (h : unaryTest ts = some (flag, arg, rest)) : rest.length + 2 = ts.length := by
  unfold unaryTest at h
  split at h
  · split at h
    · cases h
    · split at h
      · cases h
        rfl
      · split at h
        · cases h
          rfl
        · cases h
  · cases h

theorem length_takeTruthyToken (ts : List Token) :
    (takeTruthyToken ts).rest.length ≤ ts.length := by
  cases ts with
  | nil => exact Nat.le_refl _
  | cons t ts => exact Nat.le_succ _

theorem length_evalTest (ts : List Token) : (evalTest env ts).rest.length ≤ ts.length := by
  unfold evalTest
  split
  · next h =>
    have hlen := length_unaryTest h
    dsimp only
    omega
  · split
    · split
      · exact (length_collectRhs _ _).trans ((Nat.le_succ _).trans (Nat.le_succ _))
      · exact length_takeTruthyToken _
    · exact length_takeTruthyToken _

/-- What the functions of the evaluator promise with this bound. -/
structure Ends (env : TestEnv R) (n : Nat) : Prop where
  or : ∀ ts, 5 * ts.length + 4 ≤ n → ∃ e, evalOr env n ts = some e ∧ e.rest.length ≤ ts.length
  orFrom : ∀ d : Evaluated, 5 * d.rest.length + 1 ≤ n →
    ∃ e, evalOrFrom env n d = some e ∧ e.rest.length ≤ d.rest.length
  and : ∀ ts, 5 * ts.length + 3 ≤ n → ∃ e, evalAnd env n ts = some e ∧ e.rest.length ≤ ts.length
  andFrom : ∀ d : Evaluated, 5 * d.rest.length + 1 ≤ n →
    ∃ e, evalAndFrom env n d = some e ∧ e.rest.length ≤ d.rest.length
  not : ∀ ts, 5 * ts.length + 2 ≤ n → ∃ e, evalNot env n ts = some e ∧ e.rest.length ≤ ts.length
  primary : ∀ ts, 5 * ts.length + 1 ≤ n →
    ∃ e, evalPrimary env n ts = some e ∧ e.rest.length ≤ ts.length

theorem ends (n : Nat) : Ends env n := by
  induction n with
  | zero => constructor <;> intro _ h <;> omega
  | succ n ih =>
    constructor
    · intro ts hn
      obtain ⟨e, he, hlen⟩ := ih.and ts (by omega)
      obtain ⟨e', he', hlen'⟩ := ih.orFrom e (by omega)
      refine ⟨e', ?_, hlen'.trans hlen⟩
      rw [evalOr, he]
      exact he'
    · intro d hn
      rw [evalOrFrom]
      split
      · next t rest hrest =>
        rw [hrest, List.length_cons] at hn ⊢
        split
        · obtain ⟨e, he, hlen⟩ := ih.and rest (by omega)
          obtain ⟨e', he', hlen'⟩ := ih.orFrom
            ⟨d.value || e.value, e.rest, d.matched ++ e.matched⟩ (by dsimp only; omega)
          refine ⟨e', ?_, hlen'.trans (hlen.trans (Nat.le_succ _))⟩
          rw [he]
          exact he'
        · exact ⟨d, rfl, by rw [hrest]; rfl⟩
      · exact ⟨d, rfl, Nat.le_refl _⟩
    · intro ts hn
      obtain ⟨e, he, hlen⟩ := ih.not ts (by omega)
      obtain ⟨e', he', hlen'⟩ := ih.andFrom e (by omega)
      refine ⟨e', ?_, hlen'.trans hlen⟩
      rw [evalAnd, he]
      exact he'
    · intro d hn
      rw [evalAndFrom]
      split
      · next t rest hrest =>
        rw [hrest, List.length_cons] at hn ⊢
        split
        · obtain ⟨e, he, hlen⟩ := ih.not rest (by omega)
          obtain ⟨e', he', hlen'⟩ := ih.andFrom
            ⟨d.value && e.value, e.rest, d.matched ++ e.matched⟩ (by dsimp only; omega)
          refine ⟨e', ?_, hlen'.trans (hlen.trans (Nat.le_succ _))⟩
          rw [he]
          exact he'
        · exact ⟨d, rfl, by rw [hrest]; rfl⟩
      · exact ⟨d, rfl, Nat.le_refl _⟩
    · intro ts hn
      cases ts with
      | nil =>
        rw [evalNot]
        exact ih.primary [] (by omega)
      | cons t rest =>
        rw [List.length_cons] at hn ⊢
        rw [evalNot]
        split
        · obtain ⟨e, he, hlen⟩ := ih.not rest (by omega)
          refine ⟨{ e with value := !e.value }, ?_, hlen.trans (Nat.le_succ _)⟩
          rw [he]
          rfl
        · exact ih.primary (t :: rest) (by rw [List.length_cons]; omega)
    · intro ts hn
      cases ts with
      | nil =>
        rw [evalPrimary]
        exact ⟨_, rfl, length_evalTest _⟩
      | cons t rest =>
        rw [List.length_cons] at hn
        rw [evalPrimary]
        split
        · obtain ⟨e, he, hlen⟩ := ih.or rest (by omega)
          rw [he]
          refine ⟨_, rfl, ?_⟩
          rw [List.length_cons]
          dsimp only
          split
          · rw [List.length_tail]
            omega
          · exact hlen.trans (Nat.le_succ _)
        · exact ⟨_, rfl, length_evalTest _⟩

/-- **The evaluator ends on all tokens.** -/
theorem evaluate_ends (ts : List Token) : ∃ e, evaluate env ts = some e := by
  obtain ⟨e, he, -⟩ := (ends (5 * ts.length + 5)).or ts (Nat.le_succ _)
  exact ⟨e, he⟩

end

end Wasmsh.DblBracket

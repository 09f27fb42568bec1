import Wasmsh.Assignment
import Wasmsh.Braces
import Wasmsh.MemoryFs

/-!
# `test`

`builtin_test` of `wasmsh-builtins/src/lib.rs`: a leading `!` is taken off by its text before
the words are counted, and the count alone says which test the remaining words are.
-/

namespace Wasmsh.TestBuiltin

open Fs Globs

/-! ## 1. The command -/

/-- What the tests see of the shell. -/
structure Context (R : Type) where
  fs : Option (MemoryFs R)
  cwd : Path
  hasStdin : Bool

section

variable {R : Type} (ctx : Context R)

/-- `test_path`. -/
def testPath (val : Path) : Path :=
  if val.head? = some '/' then val else normalizePath (ctx.cwd ++ '/' :: val)

/-- `stat` where there is a file system, and a test of what it says. -/
def statIs (path : Path) (p : MemoryFs.Metadata → Bool) : Bool :=
  match ctx.fs with
  | some fs =>
    match fs.stat path with
    | .ok m => p m
    | .error _ => false
  | none => false

/-- `test_unary`. -/
def testUnary (op val : String) : Bool :=
  if op = "-n" then !val.isEmpty
  else if op = "-z" ∨ op = "!" then val.isEmpty
  else if op = "-t" then val == "0" && ctx.hasStdin
  else
    let path := testPath ctx val.toList
    if op = "-f" then statIs ctx path fun m => !m.isDir
    else if op = "-d" then statIs ctx path fun m => m.isDir
    else if op = "-e" then statIs ctx path fun _ => true
    else if op = "-s" then statIs ctx path fun m => decide (0 < m.size)
    else if op = "-O" ∨ op = "-G" then statIs ctx path fun _ => true
    else if op = "-N" then statIs ctx path fun m => decide (0 < m.size)
    else if op = "-r" then statIs ctx path fun m => m.mode &&& 0o400 != 0
    else if op = "-w" then statIs ctx path fun m => m.mode &&& 0o200 != 0
    else if op = "-x" then statIs ctx path fun m => m.mode &&& 0o100 != 0
    else false

/-- `int`. -/
def int (s : String) : Int := (Braces.parseI64 (trim s.toList)).getD 0

/-- `test_binary`. -/
def testBinary (left op right : String) : Bool :=
  if op = "!=" then left != right
  else if op = "=" ∨ op = "==" ∨ op = "-ef" then left == right
  else if op = "-nt" then !left.isEmpty && right.isEmpty
  else if op = "-ot" then left.isEmpty && !right.isEmpty
  else if op = "-eq" then int left == int right
  else if op = "-ne" then int left != int right
  else if op = "-lt" then decide (int left < int right)
  else if op = "-gt" then decide (int right < int left)
  else if op = "-le" then decide (int left ≤ int right)
  else if op = "-ge" then decide (int right ≤ int left)
  else false

/-- `test_check`. -/
def testCheck : List String → Bool
  | [] => false
  | first :: rest =>
    if first = "!" then !testCheck rest
    else
      match rest with
      | [] => !first.isEmpty
      | [val] => testUnary ctx first val
      | [op, right] => testBinary first op right
      | _ => false

/-- `builtin_test`: the exit status and what goes to standard error. -/
def builtinTest (argv : List String) : Nat × String :=
  let run (args : List String) : Nat × String :=
    if args.isEmpty then (1, "") else (if testCheck ctx args then 0 else 1, "")
  if argv.head? = some "[" then
    if argv.getLast? ≠ some "]" then (2, "[: missing ']'\n")
    else run ((argv.drop 1).dropLast)
  else run (argv.drop 1)

end

variable {R : Type} (ctx : Context R)

/-! ## 2. Tests of strings -/

/-- A test between brackets, its operands being any strings. -/
inductive Form where
  | equal (a b : String)
  | differ (a b : String)
  | nonempty (a : String)
  | bare (a : String)
  | empty (a : String)
  deriving DecidableEq, Repr

namespace Form

def words : Form → List String
  | equal a b => [a, "=", b]
  | differ a b => [a, "!=", b]
  | nonempty a => ["-n", a]
  | bare a => [a]
  | empty a => ["-z", a]

/-- What the test is meant to say. -/
def Holds : Form → Prop
  | equal a b => a = b
  | differ a b => a ≠ b
  | nonempty a => a ≠ ""
  | bare a => a ≠ ""
  | empty a => a = ""

/-- The operand in front of a comparison. -/
def leftOperand : Form → Option String
  | equal a _ => some a
  | differ a _ => some a
  | _ => none

end Form

/-- `[` with these words and `]` exits with 0. -/
def Succeeds (args : List String) : Prop := (builtinTest ctx ("[" :: (args ++ ["]"]))).1 = 0

/-- The operands of the test are data: it succeeds when it holds, and behind one `!` when it
    does not. -/
def ReadsOperands (f : Form) : Prop :=
  (Succeeds ctx f.words ↔ f.Holds) ∧ (Succeeds ctx ("!" :: f.words) ↔ ¬ f.Holds)

variable {ctx}

theorem succeeds_iff {args : List String} (h : args ≠ []) :
    Succeeds ctx args ↔ testCheck ctx args = true := by
  have hdrop : (args ++ ["]"]).dropLast = args := List.dropLast_concat
  have hempty : args.isEmpty = false := by simpa using h
  have hlast : ("[" :: (args ++ ["]"])).getLast? = some "]" := by
    rw [← List.cons_append, List.getLast?_concat]
  unfold Succeeds builtinTest
  rw [List.head?_cons, if_pos rfl, hlast, if_neg (fun hne => hne rfl)]
  simp only [List.drop_succ_cons, List.drop_zero, hdrop, hempty, Bool.false_eq_true, if_false]
  split <;> simp_all

@[simp] theorem testCheck_not (args : List String) :
    testCheck ctx ("!" :: args) = !testCheck ctx args := by
  conv_lhs => unfold testCheck
  rw [if_pos rfl]

theorem testCheck_bare {a : String} (h : a ≠ "!") : testCheck ctx [a] = !a.isEmpty := by
  rw [testCheck, if_neg h]

theorem testCheck_unary {op : String} (h : op ≠ "!") (val : String) :
    testCheck ctx [op, val] = testUnary ctx op val := by
  rw [testCheck, if_neg h]

theorem testCheck_binary {left : String} (h : left ≠ "!") (op right : String) :
    testCheck ctx [left, op, right] = testBinary left op right := by
  rw [testCheck, if_neg h]

/-- A test that succeeds exactly when it holds also fails behind a `!` exactly then. -/
theorem readsOperands_iff {f : Form} (h : f.words ≠ []) :
    ReadsOperands ctx f ↔ (testCheck ctx f.words = true ↔ f.Holds) := by
  unfold ReadsOperands
  rw [succeeds_iff h, succeeds_iff (List.cons_ne_nil _ _), testCheck_not, Bool.not_eq_true',
    ← Bool.not_eq_true]
  constructor
  · intro hboth
    exact hboth.1
  · intro hone
    exact ⟨hone, not_congr hone⟩

/-- **The operands are data unless the left one of a comparison is `!`**: that comparison
    always succeeds, with its operator taken for the operator of a file test. -/
theorem readsOperands_iff_holds (ctx : Context R) (f : Form) :
    ReadsOperands ctx f ↔ (f.leftOperand = some "!" → f.Holds) := by
  have hwords : f.words ≠ [] := by cases f <;> exact List.cons_ne_nil _ _
  rw [readsOperands_iff hwords]
  cases f with
  | equal a b =>
    by_cases ha : a = "!"
    · subst ha
      have hunary : testUnary ctx "=" b = false := by simp [testUnary]
      have hcheck : testCheck ctx ["!", "=", b] = true := by
        rw [testCheck_not, testCheck_unary (by decide), hunary]
        rfl
      simp [Form.words, Form.Holds, Form.leftOperand, hcheck]
    · simp [Form.words, Form.Holds, Form.leftOperand, testCheck_binary ha, testBinary, ha]
  | differ a b =>
    by_cases ha : a = "!"
    · subst ha
      have hunary : testUnary ctx "!=" b = false := by simp [testUnary]
      have hcheck : testCheck ctx ["!", "!=", b] = true := by
        rw [testCheck_not, testCheck_unary (by decide), hunary]
        rfl
      simp [Form.words, Form.Holds, Form.leftOperand, hcheck]
    · simp [Form.words, Form.Holds, Form.leftOperand, testCheck_binary ha, testBinary, ha]
  | nonempty a | empty a =>
    simp [Form.words, Form.Holds, Form.leftOperand, testCheck_unary, testUnary]
  | bare a =>
    by_cases ha : a = "!"
    · subst ha
      simp [Form.words, Form.Holds, Form.leftOperand, testCheck]
    · simp [Form.words, Form.Holds, Form.leftOperand, testCheck_bare ha]

/-- `[ ! = b ]` succeeds. -/
theorem bang_equals_b : ¬ ∀ (ctx : Context Unit) (f : Form), ReadsOperands ctx f := by
  intro h
  have hread := (h ⟨none, ['/'], false⟩ (.equal "!" "b")).1
  revert hread
  unfold Succeeds Form.Holds
  decide

end Wasmsh.TestBuiltin

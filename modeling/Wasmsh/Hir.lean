import Wasmsh.Ast

/-!
# The program tree the runtime executes

`wasmsh-hir/src/lib.rs`: what the parser's tree is lowered to.  The interpreter walks
this tree directly; only lists of assignments and builtin calls take the way through
the VM.  Source spans are kept where the runtime reads them: that of a complete command
gives `$LINENO` and the text `set -v` prints.
-/

namespace Wasmsh

/-- `wasmsh_ast::Word`. -/
structure Word where
  parts : List WordPart
  deriving Repr

/-- `wasmsh_ast::RedirectionOp`. -/
inductive RedirectionOp where
  | input
  | output
  | append
  | clobber
  | appendBoth
  | readWrite
  | hereDoc
  | hereDocStrip
  | hereString
  | dupOutput
  | dupInput
  deriving DecidableEq, Repr

/-- `wasmsh_ast::HereDocBody`. -/
structure HereDocBody where
  content : List Char
  expand : Bool
  deriving Repr

/-- `wasmsh_ast::CaseTerminator`: `;;`, `;&` and `;;&`. -/
inductive CaseTerminator where
  | stop
  | fallthrough
  | continueTesting
  deriving DecidableEq, Repr

namespace Hir

structure Redirection where
  fd : Option Nat
  op : RedirectionOp
  target : Word
  hereDocBody : Option HereDocBody
  deriving Repr

structure Assignment where
  name : String
  value : Option Word
  deriving Repr

/-- `HirExec`: a simple command with its words, its prefix assignments and its
    redirections. -/
structure Exec where
  argv : List Word
  env : List Assignment
  redirections : List Redirection
  deriving Repr

/-- `HirAndOrOp`: `&&` and `||`. -/
inductive AndOrOp where
  | and
  | or
  deriving DecidableEq, Repr

mutual

/-- `HirCommand`. -/
inductive Command where
  | exec (e : Exec)
  | assign (assignments : List Assignment) (redirections : List Redirection)
  | redirectOnly (redirections : List Redirection)
  | ifCmd (c : If) (redirections : List Redirection)
  | whileLoop (c : Loop) (redirections : List Redirection)
  | untilLoop (c : Loop) (redirections : List Redirection)
  | forLoop (c : For) (redirections : List Redirection)
  | subshell (body : List CompleteCommand) (redirections : List Redirection)
  | group (body : List CompleteCommand) (redirections : List Redirection)
  | functionDef (name : String) (body : Command)
  | caseCmd (word : Word) (items : List CaseItem) (redirections : List Redirection)
  | doubleBracket (words : List Word)
  | arithFor (c : ArithFor) (redirections : List Redirection)
  | arithCommand (expr : String)
  | select (c : For) (redirections : List Redirection)

/-- `HirIf`. -/
structure If where
  condition : List CompleteCommand
  thenBody : List CompleteCommand
  elifs : List Elif
  elseBody : Option (List CompleteCommand)

/-- `HirElif`. -/
structure Elif where
  condition : List CompleteCommand
  thenBody : List CompleteCommand

/-- `HirLoop`: `while` and `until`. -/
structure Loop where
  condition : List CompleteCommand
  body : List CompleteCommand

/-- `HirFor`, and `HirSelect`, which has the same fields. -/
structure For where
  varName : String
  words : Option (List Word)
  body : List CompleteCommand

/-- `HirArithFor`. -/
structure ArithFor where
  init : String
  cond : String
  step : String
  body : List CompleteCommand

/-- `HirCaseItem`. -/
structure CaseItem where
  patterns : List Word
  body : List CompleteCommand
  terminator : CaseTerminator

/-- `HirCompleteCommand`: and/or lists separated by `;`. -/
structure CompleteCommand where
  list : List AndOr
  span : Span

/-- `HirAndOr`. -/
structure AndOr where
  first : Pipeline
  rest : List (AndOrOp × Pipeline)

/-- `HirPipeline`. -/
structure Pipeline where
  timed : Bool
  timePosix : Bool
  negated : Bool
  commands : List Command
  pipeStderr : List Bool

end

instance : Inhabited Command := ⟨.redirectOnly []⟩

/-- `HirProgram`. -/
structure Program where
  items : List CompleteCommand

end Hir

/-- A word that is one literal. -/
def Word.ofText (s : String) : Word := ⟨[.literal s.toList]⟩

/-- A simple command of literal words. -/
def Hir.Command.ofWords (ws : List String) : Hir.Command :=
  .exec ⟨ws.map Word.ofText, [], []⟩

end Wasmsh

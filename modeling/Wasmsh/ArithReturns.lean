import Wasmsh.ArithLevels
import Wasmsh.ArithLexemes

/-!
# Where the evaluation of an expression returns

The parser takes its tokens whatever values it computes, so the names it assigns to are known
from the tokens.  It returns if each write returns, and a write returns where the namerefs of
its name lead to an end.  What is written meanwhile changes no chain but that of a nameref
without a target, whose target becomes the number that is written.
-/

namespace Wasmsh.Arith

open Chains

variable {x : ParameterExpander} {ls : List ArithLexeme}

/-! ## 1. The names that are assigned to -/

/-- The token, whatever number it is. -/
def ArithToken.shape : ArithToken → ArithToken
  | .number _ => .number 0
  | t => t

/-- A parser that notes the names that are assigned to and computes nothing. -/
abbrev NameParser := Parser ArithToken (List (List Char)) Unit

/-- The operators, which note nothing. -/
def notesNothing (op : ArithToken → Option (Action ArithState Int64)) (t : ArithToken) :
    Option (Chains.Action (List (List Char)) Unit) :=
  (op t).map fun _ _ _ names => ((), names)

section Levels

variable (assign exponentiation : NameParser)

def towerNames : Nat → NameParser
  | 0 => exponentiation
  | n + 1 => level (notesNothing (opAt n)) (towerNames n)

def ternaryNames : NameParser := fun ts names =>
  let cond := towerNames exponentiation 10 ts names
  match cond.2.1 with
  | .question :: rest =>
    let thenVal := assign rest cond.2.2
    assign (eat .colon thenVal.2.1) thenVal.2.2
  | _ => cond

def exprNames : NameParser := level (notesNothing commaOp) assign

def primaryNames : NameParser := fun ts names =>
  match ts with
  | .ident name :: .plusPlus :: rest => ((), rest, name :: names)
  | .ident name :: .minusMinus :: rest => ((), rest, name :: names)
  | .lParen :: rest =>
    let r := exprNames assign rest names
    ((), eat .rParen r.2.1, r.2.2)
  | ts => ((), ts.tail, names)

def preIncdecNames : NameParser := fun ts names =>
  match ts with
  | .ident name :: rest => ((), rest, name :: names)
  | ts => ((), ts, names)

end Levels

mutual

def assignNames : Nat → NameParser
  | 0 => fun ts names => ((), ts, names)
  | room + 1 => fun ts names =>
    match ts with
    | .ident name :: op :: rest =>
      if (assignOp op).isSome then
        let rhs := assignNames room rest names
        ((), rhs.2.1, name :: rhs.2.2)
      else ternaryNames (assignNames room) (exponentiationNames room) ts names
    | _ => ternaryNames (assignNames room) (exponentiationNames room) ts names

def exponentiationNames : Nat → NameParser
  | 0 => fun ts names => ((), ts, names)
  | room + 1 => fun ts names =>
    let base := unaryNames room ts names
    match base.2.1 with
    | .starStar :: rest => exponentiationNames room rest base.2.2
    | _ => base

def unaryNames : Nat → NameParser
  | 0 => fun ts names => ((), ts, names)
  | room + 1 => fun ts names =>
    match ts with
    | .bang :: rest => unaryNames room rest names
    | .tilde :: rest => unaryNames room rest names
    | .plus :: rest => unaryNames room rest names
    | .minus :: rest => unaryNames room rest names
    | .plusPlus :: rest => preIncdecNames rest names
    | .minusMinus :: rest => preIncdecNames rest names
    | ts => primaryNames (assignNames room) ts names

end

/-- A token of the shape the lexeme has. -/
def ArithLexeme.shape : ArithLexeme → ArithToken
  | .token t => t.shape
  | .refusedBase => .number 0
  | .parameter _ => .number 0

/-- The names that the evaluation of the lexemes assigns to. -/
def assignedNames (ls : List ArithLexeme) : List (List Char) :=
  (exprNames (assignNames maxArithDepth) (ls.map ArithLexeme.shape) []).2.2

example : assignedNames (arithLexemes "a = (b ? ++c : d--) + $e(f = 1)".toList) =
    ["a".toList, "d".toList, "c".toList] := by decide +kernel

/-! ## 2. The parser and the names -/

section Beside

variable {rel : ArithState → List (List Char) → Prop}

/-- The relation of the states to the names is kept by the steps of the parser. -/
structure Notes (rel : ArithState → List (List Char) → Prop) : Prop where
  error : ∀ message st names, rel st names → rel (setArithError message st) names
  write : ∀ name value st names, rel st names → rel (varSet name value st) (name :: names)
  read : ∀ name st names, rel st names → rel (varGet name st).2 names

theorem besideOp_of_keeps {op : ArithToken → Option (Action ArithState Int64)}
    (hshape : ∀ t, op t.shape = op t)
    (hkeeps : ∀ t act, op t = some act → ∀ a b st names, rel st names → rel (act a b st).2 names) :
    BesideOp ArithToken.shape rel op (notesNothing op) := by
  intro t
  unfold notesNothing
  rw [hshape]
  cases hact : op t with
  | none => exact Or.inl ⟨rfl, rfl⟩
  | some act =>
    right
    refine ⟨act, _, rfl, rfl, ?_⟩
    intro v w v' w' st names h
    exact hkeeps t act hact v w st names h

theorem opAt_shape (n : Nat) (t : ArithToken) : opAt n t.shape = opAt n t := by
  cases t <;> first | rfl | (rcases n with _ | _ | _ | _ | _ | _ | _ | _ | _ | _ | n <;> rfl)

theorem shape_ident (name : List Char) : (ArithToken.ident name).shape = .ident name := rfl

theorem assignOp_shape (t : ArithToken) : assignOp t.shape = assignOp t := by
  cases t <;> rfl

variable (hnotes : Notes rel)

include hnotes

theorem opAt_beside (n : Nat) :
    BesideOp ArithToken.shape rel (opAt n) (notesNothing (opAt n)) := by
  apply besideOp_of_keeps (opAt_shape n)
  intro t act hact a b st names h
  rcases opAt_some hact with ⟨op, rfl, rfl, rfl⟩
  have hdivision : ∀ f, rel (divisionOp f a b st).2 names := by
    intro f
    unfold divisionOp
    split
    · exact hnotes.error _ _ _ h
    · exact h
  cases op with
  | slash => exact hdivision _
  | percent => exact hdivision _
  | _ => exact h

theorem tower_beside {exponentiation : ArithParser} {names : NameParser}
    (h : Beside ArithToken.shape rel exponentiation names) (n : Nat) :
    Beside ArithToken.shape rel (tower exponentiation n) (towerNames names n) := by
  induction n with
  | zero => exact h
  | succ n ih => exact level_beside ih (opAt_beside hnotes n)

theorem Notes.assignRead (op : ArithToken) (name : List Char) {st : ArithState}
    {names : List (List Char)} (h : rel st names) : rel (assignRead op name st).2 names := by
  unfold Arith.assignRead
  split
  · exact h
  · exact hnotes.read _ _ _ h

omit hnotes in
theorem commaOp_beside : BesideOp ArithToken.shape rel commaOp (notesNothing commaOp) := by
  apply besideOp_of_keeps
  · intro t
    cases t <;> rfl
  · intro t act hact a b st names h
    cases t <;> cases hact
    exact h

omit hnotes in
theorem expr_beside {assign : ArithParser} {names : NameParser}
    (h : Beside ArithToken.shape rel assign names) :
    Beside ArithToken.shape rel (parseExpr assign) (exprNames names) :=
  level_beside h commaOp_beside

omit hnotes in
theorem eat_shape {expected : ArithToken} (h : ∀ t : ArithToken, t.shape = expected ↔ t = expected)
    (ts : List ArithToken) :
    eat expected (ts.map ArithToken.shape) = (eat expected ts).map ArithToken.shape := by
  cases ts with
  | nil => rfl
  | cons t ts =>
    rw [List.map_cons, eat, eat]
    by_cases ht : t = expected
    · rw [if_pos ht, if_pos ((h t).mpr ht)]
    · rw [if_neg ht, if_neg (mt (h t).mp ht), List.map_cons]

omit hnotes in
theorem shape_eq_colon (t : ArithToken) : t.shape = .colon ↔ t = .colon := by
  cases t <;> simp [ArithToken.shape]

omit hnotes in
theorem shape_eq_rParen (t : ArithToken) : t.shape = .rParen ↔ t = .rParen := by
  cases t <;> simp [ArithToken.shape]

theorem ternary_beside {assign exponentiation : ArithParser} {names names' : NameParser}
    (hassign : Beside ArithToken.shape rel assign names)
    (hexponentiation : Beside ArithToken.shape rel exponentiation names') :
    Beside ArithToken.shape rel (parseTernary assign exponentiation)
      (ternaryNames names names') := by
  intro ts st noted h
  rcases tower_beside hnotes hexponentiation 10 ts st noted h with ⟨hrest, hrel⟩
  rw [parseTernary_eq]
  dsimp only [ternaryNames]
  generalize tower exponentiation 10 ts st = cond at hrest hrel ⊢
  generalize towerNames names' 10 (ts.map ArithToken.shape) noted = cond' at hrest hrel ⊢
  rcases cond with ⟨v, rest, st'⟩
  rcases cond' with ⟨v', rest', noted'⟩
  cases hrest
  cases rest with
  | nil => exact ⟨rfl, hrel⟩
  | cons t rest =>
    cases t with
    | question =>
      rcases hassign rest st' noted' hrel with ⟨hthen, hrel'⟩
      have helse := hassign (eat .colon (assign rest st').2.1) _ _ hrel'
      rw [← eat_shape shape_eq_colon, ← hthen] at helse
      exact helse
    | _ => exact ⟨rfl, hrel⟩

theorem primary_beside {assign : ArithParser} {names : NameParser}
    (h : Beside ArithToken.shape rel assign names) :
    Beside ArithToken.shape rel (parsePrimary assign) (primaryNames names) := by
  intro ts st noted hrel
  cases ts with
  | nil => exact ⟨rfl, hrel⟩
  | cons t ts =>
    cases t with
    | ident name =>
      cases ts with
      | nil => exact ⟨rfl, hnotes.read _ _ _ hrel⟩
      | cons t ts =>
        cases t with
        | plusPlus => exact ⟨rfl, hnotes.write _ _ _ _ (hnotes.read _ _ _ hrel)⟩
        | minusMinus => exact ⟨rfl, hnotes.write _ _ _ _ (hnotes.read _ _ _ hrel)⟩
        | _ => exact ⟨rfl, hnotes.read _ _ _ hrel⟩
    | lParen =>
      rcases expr_beside h ts st noted hrel with ⟨hrest, hrel'⟩
      refine ⟨?_, hrel'⟩
      exact (congrArg (eat .rParen) hrest).trans (eat_shape shape_eq_rParen _)
    | _ => exact ⟨rfl, hrel⟩

theorem preIncdec_beside (delta : Int64) :
    Beside ArithToken.shape rel (parsePreIncdec delta) preIncdecNames := by
  intro ts st noted hrel
  cases ts with
  | nil => exact ⟨rfl, hrel⟩
  | cons t ts =>
    cases t with
    | ident name => exact ⟨rfl, hnotes.write _ _ _ _ (hnotes.read _ _ _ hrel)⟩
    | _ => exact ⟨rfl, hrel⟩

theorem unary_beside {room : Nat}
    (hassign : Beside ArithToken.shape rel (parseAssign room) (assignNames room))
    (hunary : Beside ArithToken.shape rel (parseUnary room) (unaryNames room)) :
    Beside ArithToken.shape rel (parseUnary (room + 1)) (unaryNames (room + 1)) := by
  have hprimary := primary_beside hnotes hassign
  intro ts st noted hrel
  cases ts with
  | nil => exact hprimary [] st noted hrel
  | cons t ts =>
    have hother := hprimary (t :: ts) st noted hrel
    cases t with
    | bang | tilde | plus | minus => exact hunary ts st noted hrel
    | plusPlus => exact preIncdec_beside hnotes 1 ts st noted hrel
    | minusMinus => exact preIncdec_beside hnotes (-1) ts st noted hrel
    | _ => exact hother

omit hnotes in
theorem exponentiation_beside {room : Nat}
    (hexponentiation :
      Beside ArithToken.shape rel (parseExponentiation room) (exponentiationNames room))
    (hunary : Beside ArithToken.shape rel (parseUnary room) (unaryNames room)) :
    Beside ArithToken.shape rel (parseExponentiation (room + 1))
      (exponentiationNames (room + 1)) := by
  intro ts st noted h
  rcases hunary ts st noted h with ⟨hrest, hrel⟩
  rw [parseExponentiation_succ]
  dsimp only [exponentiationNames]
  generalize parseUnary room ts st = base at hrest hrel ⊢
  generalize unaryNames room (ts.map ArithToken.shape) noted = base' at hrest hrel ⊢
  rcases base with ⟨v, rest, st'⟩
  rcases base' with ⟨v', rest', noted'⟩
  cases hrest
  cases rest with
  | nil => exact ⟨rfl, hrel⟩
  | cons t rest =>
    cases t with
    | starStar => exact hexponentiation rest st' noted' hrel
    | _ => exact ⟨rfl, hrel⟩

theorem assign_beside {room : Nat}
    (hassign : Beside ArithToken.shape rel (parseAssign room) (assignNames room))
    (hexponentiation :
      Beside ArithToken.shape rel (parseExponentiation room) (exponentiationNames room)) :
    Beside ArithToken.shape rel (parseAssign (room + 1)) (assignNames (room + 1)) := by
  have hternary := ternary_beside hnotes hassign hexponentiation
  intro ts st noted hrel
  have hother := hternary ts st noted hrel
  cases ts with
  | nil =>
    dsimp only [List.map, parseAssign, assignNames] at hother ⊢
    exact hother
  | cons t ts =>
    cases t with
    | ident name =>
      cases ts with
      | nil =>
        dsimp only [List.map, ArithToken.shape, parseAssign, assignNames] at hother ⊢
        exact hother
      | cons op ts =>
        dsimp only [List.map, shape_ident, parseAssign, assignNames] at hother ⊢
        have hshape := assignOp_shape op
        cases hop : assignOp op with
        | none =>
          rw [hshape, hop, Option.isSome_none, if_neg Bool.false_ne_true]
          dsimp only
          exact hother
        | some apply =>
          rcases hassign ts st noted hrel with ⟨hrest, hrel'⟩
          rw [hshape, hop, Option.isSome_some, if_pos rfl]
          exact ⟨hrest, hnotes.write _ _ _ _ (hnotes.assignRead _ _ hrel')⟩
    | _ =>
      dsimp only [List.map, ArithToken.shape, parseAssign, assignNames] at hother ⊢
      exact hother

/-- The parsers take the tokens that the parsers of the names take. -/
theorem parsers_beside (room : Nat) :
    Beside ArithToken.shape rel (parseAssign room) (assignNames room) ∧
      Beside ArithToken.shape rel (parseExponentiation room) (exponentiationNames room) ∧
      Beside ArithToken.shape rel (parseUnary room) (unaryNames room) := by
  induction room with
  | zero =>
    have hlimit : Beside ArithToken.shape rel limitReached fun ts names => ((), ts, names) := by
      intro ts st noted hrel
      exact ⟨rfl, hnotes.error _ _ _ hrel⟩
    exact ⟨hlimit, hlimit, hlimit⟩
  | succ room ih =>
    rcases ih with ⟨hassign, hexponentiation, hunary⟩
    exact ⟨assign_beside hnotes hassign hexponentiation,
      exponentiation_beside hexponentiation hunary, unary_beside hnotes hassign hunary⟩

end Beside

/-! ## 3. Writes that return -/

/-- No variable that is written without being named is a nameref: `_ARITH_ERROR`, and one
    whose name is a number that may become the target of a nameref. -/
def NumbersPlain (s : ShellState) : Prop :=
  s.isNameref "_ARITH_ERROR" = false ∧ ∀ n : Int64, s.isNameref (toString n.toInt) = false

/-- The namerefs of the name lead to an end, and to a nameref only where a number that is
    written there names no nameref. -/
def WriteEnds (s : ShellState) (name : List Char) : Prop :=
  s.EndsAt (fun target => s.isNameref target = true → NumbersPlain s) (String.ofList name)

section Writes

open ShellState

variable {s s₁ : ShellState} {target : String}

theorem NumbersPlain.writeVar (h : NumbersPlain s) (name value : String) :
    NumbersPlain (s.writeVar name value) := by
  constructor
  · rw [isNameref_writeVar]
    exact h.1
  · intro n
    rw [isNameref_writeVar]
    exact h.2 n

/-- A chain still ends at the variable that is written. -/
theorem NumbersPlain.endsAt_written (h : NumbersPlain s) (hro : s.isVarReadonly target = false)
    (value : Int64) :
    (s.writeVar target (toString value.toInt)).EndsAt (fun _ => True) target := by
  have hget : (s.writeVar target (toString value.toInt)).hop target =
      namerefTarget (s.written target (toString value.toInt)) target := by
    rw [writeVar_eq hro, hop_setEntry, if_pos rfl]
  unfold namerefTarget at hget
  split at hget
  · have hnumber := hop_of_not_nameref ((h.writeVar target (toString value.toInt)).2 value)
    exact ⟨1, _, hget, hnumber, trivial⟩
  · exact ⟨0, hget, trivial⟩

theorem NumbersPlain.endsAt_writeVar_iff (h : NumbersPlain s) (hend : s.hop target = none)
    (value : Int64) (name : String) :
    (s.writeVar target (toString value.toInt)).EndsAt (fun _ => True) name ↔
      s.EndsAt (fun _ => True) name := by
  cases hro : s.isVarReadonly target with
  | true => rw [writeVar_of_readonly hro]
  | false =>
    have hother : ∀ b, b ≠ target →
        (s.writeVar target (toString value.toInt)).hop b = s.hop b := by
      intro b hb
      rw [writeVar_eq hro, hop_setEntry, if_neg hb.symm]
    constructor
    · intro hname
      exact EndsAt.of_agree ⟨0, hend, trivial⟩ (fun b hb => (hother b hb).symm)
        (fun _ _ => id) hname
    · intro hname
      exact EndsAt.of_agree (h.endsAt_written hro value) hother (fun _ _ => id) hname

theorem isNameref_setError (message name : String) :
    (s.setEntry "_ARITH_ERROR" (.ofScalar message)).isNameref name =
      if "_ARITH_ERROR" = name then false else s.isNameref name :=
  isNameref_setEntry _ _ _

theorem hop_setError {message name : String} (h : name ≠ "_ARITH_ERROR") :
    (s.setEntry "_ARITH_ERROR" (.ofScalar message)).hop name = s.hop name := by
  rw [hop_setEntry, if_neg h.symm]

/-- The error is no nameref, so a chain that reaches it ends. -/
theorem hop_setError_self (message : String) :
    (s.setEntry "_ARITH_ERROR" (.ofScalar message)).hop "_ARITH_ERROR" = none := by
  apply hop_of_not_nameref
  rw [isNameref_setError, if_pos rfl]

theorem NumbersPlain.setError (h : NumbersPlain s) (message : String) :
    NumbersPlain (s.setEntry "_ARITH_ERROR" (.ofScalar message)) := by
  constructor
  · rw [isNameref_setError, if_pos rfl]
  · intro n
    rw [isNameref_setError]
    split
    · rfl
    · exact h.2 n

theorem NumbersPlain.endsAt_setError_iff (h : NumbersPlain s) (message name : String) :
    (s.setEntry "_ARITH_ERROR" (.ofScalar message)).EndsAt (fun _ => True) name ↔
      s.EndsAt (fun _ => True) name := by
  constructor
  · intro hname
    exact EndsAt.of_agree ⟨0, hop_of_not_nameref h.1, trivial⟩ (fun b hb => (hop_setError hb).symm)
      (fun _ _ => id) hname
  · intro hname
    exact EndsAt.of_agree ⟨0, hop_setError_self message, trivial⟩ (fun b hb => hop_setError hb)
      (fun _ _ => id) hname

theorem varSet_some (name : List Char) (value : Int64) :
    varSet name value (some s) =
      (s.target (String.ofList name)).map fun target =>
        s.writeVar target (toString value.toInt) := rfl

theorem endsAt_randomSeed (seed : UInt32) {p : String → Prop} {name : String} :
    EndsAt { s with randomSeed := seed } p name ↔ s.EndsAt p name := by
  have hafter : ∀ n name, EndsAfter { s with randomSeed := seed } p n name ↔ s.EndsAfter p n name := by
    intro n
    induction n with
    | zero => exact fun _ => Iff.rfl
    | succ n ih => exact fun _ => exists_congr fun next => and_congr_right fun _ => ih next
  exact exists_congr fun n => hafter n name

/-- The evaluation from `s₁` on, in which the names have been assigned to: it has returned
    until now if their chains end, and the same chains end as in the beginning. -/
def Reached (s₁ : ShellState) (st : ArithState) (names : List (List Char)) : Prop :=
  (∃ s, st = some s ∧ NumbersPlain s ∧
      (∀ a, s.EndsAt (fun _ => True) a ↔ s₁.EndsAt (fun _ => True) a) ∧
      ∀ name ∈ names, s₁.EndsAt (fun _ => True) (String.ofList name)) ∨
    st = none ∧ ∃ name ∈ names, ¬ s₁.EndsAt (fun _ => True) (String.ofList name)

theorem reached_notes : Notes (Reached s₁) := by
  constructor
  · rintro message st names (⟨s, rfl, hplain, hsame, hnames⟩ | ⟨rfl, hname⟩)
    · left
      refine ⟨_, rfl, hplain.setError message, ?_, hnames⟩
      intro a
      exact (hplain.endsAt_setError_iff message a).trans (hsame a)
    · exact Or.inr ⟨rfl, hname⟩
  · rintro name value st names (⟨s, rfl, hplain, hsame, hnames⟩ | ⟨rfl, hname⟩)
    · rw [varSet_some]
      by_cases hends : s₁.EndsAt (fun _ => True) (String.ofList name)
      · rcases ((hsame _).mpr hends).target with ⟨target, -, htarget⟩
        have hend := hop_eq_none (not_follows_of_target htarget)
        left
        refine ⟨_, by rw [htarget, Option.map_some], hplain.writeVar _ _, ?_, ?_⟩
        · intro a
          exact (hplain.endsAt_writeVar_iff hend value a).trans (hsame a)
        · intro other hother
          rcases List.mem_cons.mp hother with rfl | hother
          · exact hends
          · exact hnames other hother
      · right
        refine ⟨?_, name, .head _, hends⟩
        have htarget : s.target (String.ofList name) = none := by
          by_contra hsome
          exact hends ((hsame _).mp (target_isSome_iff.mp (Option.isSome_iff_ne_none.mpr hsome)))
        rw [htarget, Option.map_none]
    · rcases hname with ⟨other, hother, hends⟩
      exact Or.inr ⟨rfl, other, .tail _ hother, hends⟩
  · rintro name st names (⟨s, rfl, hplain, hsame, hnames⟩ | ⟨rfl, hname⟩)
    · rcases varGet_some name s with ⟨seed, hread⟩
      exact Or.inl ⟨_, hread, hplain, fun a => (endsAt_randomSeed seed).trans (hsame a), hnames⟩
    · exact Or.inr ⟨rfl, hname⟩

/-- The namerefs of the name lead to a variable that is no nameref. -/
def EndsPlain (s : ShellState) (name : String) : Prop :=
  s.EndsAt (fun target => s.isNameref target = false) name

/-- The evaluation from `s₁` on has returned until now if the namerefs of the names that have
    been assigned to lead to variables; and they still do. -/
def Spared (s₁ : ShellState) (st : ArithState) (names : List (List Char)) : Prop :=
  (∀ name ∈ names, EndsPlain s₁ (String.ofList name)) →
    ∃ s, st = some s ∧ ∀ a, EndsPlain s₁ a → EndsPlain s a

theorem EndsPlain.setError {name : String} (h : EndsPlain s name) (message : String) :
    EndsPlain (s.setEntry "_ARITH_ERROR" (.ofScalar message)) name := by
  refine EndsAt.of_agree ⟨0, hop_setError_self message, ?_⟩ (fun b hb => hop_setError hb) ?_ h
  · exact (isNameref_setError _ _).trans (if_pos rfl)
  · intro b hb hplain
    exact (isNameref_setError _ _).trans ((if_neg hb.symm).trans hplain)

theorem EndsPlain.writeVar {name : String} (h : EndsPlain s name)
    (htarget : s.isNameref target = false) (value : String) :
    EndsPlain (s.writeVar target value) name := by
  have hself : (s.writeVar target value).isNameref target = false := by
    rw [isNameref_writeVar]
    exact htarget
  refine EndsAt.of_agree ⟨0, hop_of_not_nameref hself, hself⟩ ?_ ?_ h
  · intro b hb
    unfold hop
    rw [get_writeVar_of_ne hb.symm]
  · intro b hb hplain
    exact (isNameref_writeVar _ _ _).trans hplain

theorem spared_notes : Notes (Spared s₁) := by
  constructor
  · intro message st names h hnames
    rcases h hnames with ⟨s, rfl, hkept⟩
    exact ⟨_, rfl, fun a ha => (hkept a ha).setError message⟩
  · intro name value st names h hnames
    rcases h fun other hother => hnames other (.tail _ hother) with ⟨s, rfl, hkept⟩
    rcases (hkept _ (hnames name (.head _))).target with ⟨target, hplain, htarget⟩
    refine ⟨s.writeVar target (toString value.toInt), ?_, ?_⟩
    · rw [varSet_some, htarget, Option.map_some]
    · intro a ha
      exact (hkept a ha).writeVar hplain _
  · intro name st names h hnames
    rcases h hnames with ⟨s, rfl, hkept⟩
    rcases varGet_some name s with ⟨seed, hread⟩
    exact ⟨_, hread, fun a ha => (endsAt_randomSeed seed).mpr (hkept a ha)⟩

end Writes

/-! ## 4. The evaluation -/

/-- The parameters of a text, in their order. -/
def parameters (ls : List ArithLexeme) : List (List Char) :=
  ls.filterMap fun l =>
    match l with
    | .parameter name => some name
    | _ => none

/-- The state after the parameters have been expanded, one after the other. -/
def expandParameters (x : ParameterExpander) : List (List Char) → ShellState → Option ShellState
  | [], s => some s
  | name :: names, s =>
    (Bytes.parameterToken x name s).bind fun found => expandParameters x names found.2

theorem readLexemes_of_refused
    (h : .refusedBase ∈ ls) (s : ShellState) : readLexemes x ls s = none := by
  induction ls generalizing s with
  | nil => cases h
  | cons l ls ih =>
    rw [readLexemes]
    rcases List.mem_cons.mp h with rfl | h
    · rfl
    · cases l.read x s with
      | none => rfl
      | some found => rw [Option.bind_some, ih h, Option.map_none]

theorem readLexemes_state (x : ParameterExpander) (h : .refusedBase ∉ ls) (s : ShellState) :
    (readLexemes x ls s).map (·.2) = expandParameters x (parameters ls) s := by
  induction ls generalizing s with
  | nil => rfl
  | cons l ls ih =>
    rw [List.mem_cons, not_or] at h
    have hrest : ∀ found : ArithToken × ShellState,
        ((readLexemes x ls found.2).map fun rest => (found.1 :: rest.1, rest.2)).map (·.2) =
          expandParameters x (parameters ls) found.2 := by
      intro found
      rw [Option.map_map, ← ih h.2]
      rfl
    rw [readLexemes]
    cases l with
    | token t => exact hrest (t, s)
    | refusedBase => exact absurd rfl h.1
    | parameter name =>
      dsimp only [ArithLexeme.read, parameters, List.filterMap, expandParameters]
      cases Bytes.parameterToken x name s with
      | none => rfl
      | some found => exact hrest found

theorem readLexemes_shape {s s₁ : ShellState}
    {ts : List ArithToken} (h : readLexemes x ls s = some (ts, s₁)) :
    ts.map ArithToken.shape = ls.map ArithLexeme.shape := by
  induction ls generalizing s ts with
  | nil =>
    cases h
    rfl
  | cons l ls ih =>
    rw [readLexemes, Option.bind_eq_some_iff] at h
    rcases h with ⟨⟨t, s'⟩, hread, h⟩
    rw [Option.map_eq_some_iff] at h
    rcases h with ⟨⟨ts', s''⟩, hrest, heq⟩
    cases heq
    rw [List.map_cons, List.map_cons, ih hrest]
    congr 1
    cases l with
    | token t' =>
      cases hread
      rfl
    | refusedBase => cases hread
    | parameter name =>
      rw [ArithLexeme.read, Bytes.parameterToken, Option.bind_eq_some_iff] at hread
      rcases hread with ⟨out, -, hread⟩
      rw [Option.map_eq_some_iff] at hread
      rcases hread with ⟨s₀, -, heq⟩
      cases heq
      rfl

theorem tower_nil {exponentiation : ArithParser} {st : ArithState}
    (h : exponentiation [] st = (0, [], st)) (n : Nat) :
    tower exponentiation n [] st = (0, [], st) := by
  induction n with
  | zero => exact h
  | succ n ih =>
    dsimp only [tower, level]
    rw [ih]
    rfl

/-- Nothing is evaluated where there are no tokens. -/
theorem parseExpr_nil (room : Nat) (st : ArithState) :
    parseExpr (parseAssign (room + 3)) [] st = (0, [], st) := by
  have hexponentiation : parseExponentiation (room + 2) [] st = (0, [], st) := by
    rw [parseExponentiation_succ]
    rfl
  have hternary : parseTernary (parseAssign (room + 2)) (parseExponentiation (room + 2)) [] st =
      (0, [], st) := by
    rw [parseTernary_eq]
    dsimp only
    rw [tower_nil hexponentiation]
    rfl
  have hassign : parseAssign (room + 3) [] st = (0, [], st) := by
    rw [parseAssign]
    exact hternary
  dsimp only [parseExpr, level]
  rw [hassign]
  rfl

theorem evalArithmetic_eq (x : ParameterExpander) (text : List Char) (s : ShellState) :
    Bytes.evalArithmetic x text s =
      (readLexemes x (arithLexemes (trim text)) s).bind fun tokens =>
        let r := parseExpr (parseAssign maxArithDepth) tokens.1 (some tokens.2)
        r.2.2.map fun s' => (r.1, s') := by
  rw [Bytes.evalArithmetic, arithTokenize_lexemes]
  congr 1
  funext tokens
  rcases tokens with ⟨ts, s₁⟩
  dsimp only
  split
  · next hnil =>
    subst hnil
    rw [maxArithDepth, parseExpr_nil]
    rfl
  · rfl

/-- A state that is not reached is not reached any more. -/
theorem parseExpr_none (room : Nat) (ts : List ArithToken) :
    (parseExpr (parseAssign room) ts none).2.2 = none := by
  have hkept : Kept (fun _ => True) fun st => st = none := by
    constructor
    · rintro _ rfl
      rfl
    · rintro _ _ _ _ rfl
      rfl
    · rintro _ _ _ _ _ _ rfl
      rfl
    · rintro _ _ rfl
      rfl
  exact (parseExpr_sane (parsers_sane hkept room).1).keeps ts none (fun _ _ => trivial) rfl

/-- The evaluation on bytes is the one on characters, where parameters always have a value. -/
theorem evalArithmetic_characters (x : Expander) (text : List Char) (s : ShellState) :
    Bytes.evalArithmetic (returning x) text s =
      (evalArithmetic x text s).2.map fun s' => ((evalArithmetic x text s).1, s') := by
  rw [Bytes.evalArithmetic, arithTokenize_characters]
  unfold evalArithmetic
  dsimp only
  rcases arithTokenize x (trim text) (some s) with ⟨ts, _ | s₁⟩
  · dsimp only [Option.map_none, Option.bind_none]
    split
    · rfl
    · rw [parseExpr_none, Option.map_none]
  · dsimp only [Option.map_some, Option.bind_some]
    split
    · rfl
    · rfl

/-- The steps that may not return do: no base is one that the standard library refuses, all
    parameters are expanded, and in the state after them the namerefs of the names that are
    assigned to lead to an end. -/
structure StepsReturn (x : ParameterExpander) (text : List Char) (s : ShellState) : Prop where
  bases : .refusedBase ∉ arithLexemes (trim text)
  writes : ∃ s₁, expandParameters x (parameters (arithLexemes (trim text))) s = some s₁ ∧
    ∀ name ∈ assignedNames (arithLexemes (trim text)), WriteEnds s₁ name

theorem expandParameters_of_read
    {s s₁ : ShellState} {ts : List ArithToken} (h : readLexemes x ls s = some (ts, s₁)) :
    .refusedBase ∉ ls ∧ expandParameters x (parameters ls) s = some s₁ := by
  have hbases : .refusedBase ∉ ls := by
    intro hmem
    rw [readLexemes_of_refused hmem] at h
    cases h
  refine ⟨hbases, ?_⟩
  rw [← readLexemes_state x hbases, h, Option.map_some]

/-- What holds at the beginning of the evaluation holds at its end, of the names that are
    assigned to. -/
theorem parseExpr_notes {rel : ArithState → List (List Char) → Prop} (hnotes : Notes rel)
    {s s₁ : ShellState} {ts : List ArithToken}
    (h : readLexemes x ls s = some (ts, s₁)) (hstart : rel (some s₁) []) :
    rel (parseExpr (parseAssign maxArithDepth) ts (some s₁)).2.2 (assignedNames ls) := by
  have hbeside := expr_beside (parsers_beside hnotes maxArithDepth).1
  have hrel := (hbeside ts (some s₁) [] hstart).2
  rw [readLexemes_shape h] at hrel
  exact hrel

theorem StepsReturn.isSome {text : List Char} {s : ShellState}
    (h : StepsReturn x text s) : (Bytes.evalArithmetic x text s).isSome = true := by
  rcases h.writes with ⟨s₁, hexpand, hends⟩
  rw [← readLexemes_state x h.bases, Option.map_eq_some_iff] at hexpand
  rcases hexpand with ⟨⟨ts, s₁'⟩, hread, rfl⟩
  rw [evalArithmetic_eq, hread, Option.bind_some, Option.isSome_map]
  by_cases hplain : NumbersPlain s₁'
  · have hstart : Reached s₁' (some s₁') [] := by
      left
      exact ⟨s₁', rfl, hplain, fun a => Iff.rfl, fun name hname => absurd hname List.not_mem_nil⟩
    rcases parseExpr_notes reached_notes hread hstart with ⟨s', heq, -⟩ | ⟨-, name, hname, hno⟩
    · rw [heq]
      rfl
    · exact absurd ((hends name hname).mono fun _ _ => trivial) hno
  · have hstart : Spared s₁' (some s₁') [] := fun _ => ⟨s₁', rfl, fun _ => id⟩
    have hnames : ∀ name ∈ assignedNames (arithLexemes (trim text)),
        EndsPlain s₁' (String.ofList name) := by
      intro name hname
      apply (hends name hname).mono
      intro target hnameref
      rw [Bool.eq_false_iff]
      exact fun href => hplain (hnameref href)
    rcases parseExpr_notes spared_notes hread hstart hnames with ⟨s', heq, -⟩
    rw [heq]
    rfl

theorem StepsReturn.of_isSome {text : List Char} {s : ShellState}
    (hplain : ∀ s₁, expandParameters x (parameters (arithLexemes (trim text))) s = some s₁ →
      NumbersPlain s₁)
    (h : (Bytes.evalArithmetic x text s).isSome = true) : StepsReturn x text s := by
  rw [evalArithmetic_eq] at h
  cases hread : readLexemes x (arithLexemes (trim text)) s with
  | none =>
    rw [hread] at h
    cases h
  | some tokens =>
    rcases tokens with ⟨ts, s₁⟩
    rw [hread, Option.bind_some, Option.isSome_map] at h
    rcases expandParameters_of_read hread with ⟨hbases, hexpand⟩
    have hplain₁ := hplain s₁ hexpand
    have hstart : Reached s₁ (some s₁) [] := by
      left
      exact ⟨s₁, rfl, hplain₁, fun a => Iff.rfl, fun name hname => absurd hname List.not_mem_nil⟩
    refine ⟨hbases, s₁, hexpand, ?_⟩
    rcases parseExpr_notes reached_notes hread hstart with ⟨s', -, -, -, hends⟩ | ⟨heq, -⟩
    · intro name hname
      apply (hends name hname).mono
      exact fun _ _ _ => hplain₁
    · rw [heq] at h
      cases h

/-- **Where the evaluation returns.**  The evaluation of a text returns if its steps do: if no
    literal has a base above 36, the parameters are expanded and the namerefs of the names
    that are assigned to lead to an end.  Where no number is the name of a nameref, it returns
    only then. -/
theorem eval_arithmetic_returns (x : ParameterExpander) (text : List Char) (s : ShellState) :
    (StepsReturn x text s → (Bytes.evalArithmetic x text s).isSome = true) ∧
      ((∀ s₁, expandParameters x (parameters (arithLexemes (trim text))) s = some s₁ →
          NumbersPlain s₁) →
        (Bytes.evalArithmetic x text s).isSome = true → StepsReturn x text s) :=
  ⟨StepsReturn.isSome, StepsReturn.of_isSome⟩

/-- Parameters without a value. -/
def unsetParameters : ParameterExpander := fun _ _ => some ([], [])

theorem returns_at_base_36 : StepsReturn unsetParameters "a = 36#z".toList ShellState.new := by
  have hplain : NumbersPlain ShellState.new := ⟨rfl, fun _ => rfl⟩
  refine (eval_arithmetic_returns unsetParameters "a = 36#z".toList ShellState.new).2 ?_
    (by decide +kernel)
  intro s₁ h
  have hexpand : expandParameters unsetParameters
      (parameters (arithLexemes (trim "a = 36#z".toList))) ShellState.new =
        some ShellState.new := by
    decide +kernel
  rw [hexpand] at h
  cases h
  exact hplain

/-- Two namerefs that refer to each other. -/
def withNamerefCircle : ShellState :=
  { ShellState.new with env := ⟨[("a", ⟨.scalar "b", false, false, false, true⟩),
      ("b", ⟨.scalar "a", false, false, false, true⟩)], []⟩ }

theorem eval_arithmetic_does_not_return :
    Bytes.evalArithmetic unsetParameters "37#1".toList ShellState.new = none ∧
      Bytes.evalArithmetic unsetParameters "1 ? 2 : a++".toList withNamerefCircle = none := by
  decide +kernel

end Wasmsh.Arith

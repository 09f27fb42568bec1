import Wasmsh.ArithReads
import Wasmsh.ArithReturns
import Wasmsh.Variables

/-!
# Divisions by zero

The evaluation of an expression with a record of what it does: where it divides by zero, what it
assigns, and which values are results of a division by zero.  The record changes nothing, so what
it says is so of the evaluation itself: when an error is pending after it, and when a variable
has been given such a result.
-/

namespace Wasmsh.Divisions

open Arith Chains

/-! ## 1. The record -/

/-- A number, and whether it is what a division by zero has come to. -/
structure Value where
  number : Int64
  byZero : Bool
  deriving DecidableEq, Repr

inductive Step where
  /-- The depth guard reports an error. -/
  | guard
  /-- The operator divides by zero. -/
  | divided (op : ArithToken)
  /-- The variable a value is assigned to; none if it is read-only. -/
  | assigned (op : ArithToken) (rhs value : Value) (target : Option String)
  /-- `++` and `--`. -/
  | stepped (target : Option String)
  deriving DecidableEq, Repr

/-- The state of the evaluation, and what it has done. -/
structure Traced where
  state : ArithState
  steps : List Step

/-- The variable that a write to the name changes. -/
def written (name : List Char) (st : ArithState) : Option String :=
  st.bind fun s => (s.target (String.ofList name)).filter fun target => !s.isVarReadonly target

/-- The assignment divides by zero. -/
def DividesByZero (op : ArithToken) (rhs : Value) : Prop :=
  (op = .slashEq ∨ op = .percentEq) ∧ rhs.number = 0

instance (op : ArithToken) (rhs : Value) : Decidable (DividesByZero op rhs) :=
  inferInstanceAs (Decidable (_ ∧ _))

/-- The value that is assigned: the right side itself, or what is made of it. -/
def assignValue (op : ArithToken) (apply : Int64 → Int64 → Int64) (current : Int64)
    (rhs : Value) : Value :=
  ⟨apply current rhs.number, (op = .eq ∧ rhs.byZero) ∨ DividesByZero op rhs⟩

/-! ## 2. The parser with the record -/

abbrev TracedParser := Parser ArithToken Traced Value

/-- What an operator does, with the record. -/
def tracedAction (t : ArithToken) (act : Chains.Action ArithState Int64) :
    Chains.Action Traced Value := fun a b tr =>
  let r := act a.number b.number tr.state
  if (t = .slash ∨ t = .percent) ∧ b.number = 0 then
    (⟨r.1, true⟩, ⟨r.2, tr.steps ++ [.divided t]⟩)
  else (⟨r.1, false⟩, ⟨r.2, tr.steps⟩)

def tracedOp (op : ArithToken → Option (Chains.Action ArithState Int64)) (t : ArithToken) :
    Option (Chains.Action Traced Value) :=
  (op t).map (tracedAction t)

/-- The comma passes its right side on. -/
def tracedComma : ArithToken → Option (Chains.Action Traced Value)
  | .comma => some fun _ b tr => (b, tr)
  | _ => none

/-- A step of the variable. -/
def tracedStep (name : List Char) (delta : Int64) (tr : Traced) : Traced :=
  let cur := varGet name tr.state
  ⟨varSet name (cur.1 + delta) cur.2, tr.steps ++ [.stepped (written name cur.2)]⟩

section Levels

variable (assign exponentiation : TracedParser)

def tracedTower : Nat → TracedParser
  | 0 => exponentiation
  | n + 1 => level (tracedOp (opAt n)) (tracedTower n)

def tracedTernary : TracedParser := fun ts tr =>
  let cond := tracedTower exponentiation 10 ts tr
  match cond.2.1 with
  | .question :: rest =>
    let thenVal := assign rest cond.2.2
    let elseVal := assign (eat .colon thenVal.2.1) thenVal.2.2
    (if cond.1.number ≠ 0 then thenVal.1 else elseVal.1, elseVal.2)
  | _ => cond

def tracedExpr : TracedParser := level tracedComma assign

def tracedPrimary : TracedParser := fun ts tr =>
  match ts with
  | .number n :: rest => (⟨n, false⟩, rest, tr)
  | .ident name :: .plusPlus :: rest =>
    (⟨(varGet name tr.state).1, false⟩, rest, tracedStep name 1 tr)
  | .ident name :: .minusMinus :: rest =>
    (⟨(varGet name tr.state).1, false⟩, rest, tracedStep name (-1) tr)
  | .ident name :: rest =>
    let cur := varGet name tr.state
    (⟨cur.1, false⟩, rest, ⟨cur.2, tr.steps⟩)
  | .lParen :: rest =>
    let r := tracedExpr assign rest tr
    (r.1, eat .rParen r.2.1, r.2.2)
  | _ :: rest => (⟨0, false⟩, rest, tr)
  | [] => (⟨0, false⟩, [], tr)

def tracedPreIncdec (delta : Int64) : TracedParser := fun ts tr =>
  match ts with
  | .ident name :: rest =>
    (⟨(varGet name tr.state).1 + delta, false⟩, rest, tracedStep name delta tr)
  | ts => (⟨0, false⟩, ts, tr)

end Levels

def tracedLimit : TracedParser := fun ts tr =>
  (⟨0, false⟩, ts, ⟨setArithError recursionLimit tr.state, tr.steps ++ [.guard]⟩)

/-- The assignment of a right side that has been computed. -/
def tracedWrite (name : List Char) (op : ArithToken) (value rhs : Value) (tr : Traced) : Traced :=
  ⟨varSet name value.number tr.state,
    tr.steps ++ (if DividesByZero op rhs then [.divided op] else []) ++
      [.assigned op rhs value (written name tr.state)]⟩

mutual

def tracedAssign : Nat → TracedParser
  | 0 => tracedLimit
  | room + 1 => fun ts tr =>
    match ts with
    | .ident name :: op :: rest =>
      match assignOp op with
      | some apply =>
        let rhs := tracedAssign room rest tr
        let cur := assignRead op name rhs.2.2.state
        let value := assignValue op apply cur.1 rhs.1
        (value, rhs.2.1, tracedWrite name op value rhs.1 ⟨cur.2, rhs.2.2.steps⟩)
      | none => tracedTernary (tracedAssign room) (tracedExponentiation room) ts tr
    | _ => tracedTernary (tracedAssign room) (tracedExponentiation room) ts tr

def tracedExponentiation : Nat → TracedParser
  | 0 => tracedLimit
  | room + 1 => fun ts tr =>
    let base := tracedUnary room ts tr
    match base.2.1 with
    | .starStar :: rest =>
      let exp := tracedExponentiation room rest base.2.2
      (⟨wrappingPow base.1.number exp.1.number, false⟩, exp.2)
    | _ => base

def tracedUnary : Nat → TracedParser
  | 0 => tracedLimit
  | room + 1 => fun ts tr =>
    match ts with
    | .bang :: rest =>
      let r := tracedUnary room rest tr
      (⟨ofBool (r.1.number == 0), false⟩, r.2)
    | .tilde :: rest =>
      let r := tracedUnary room rest tr
      (⟨~~~r.1.number, false⟩, r.2)
    | .plus :: rest => tracedUnary room rest tr
    | .minus :: rest =>
      let r := tracedUnary room rest tr
      (⟨-r.1.number, false⟩, r.2)
    | .plusPlus :: rest => tracedPreIncdec 1 rest tr
    | .minusMinus :: rest => tracedPreIncdec (-1) rest tr
    | ts => tracedPrimary (tracedAssign room) ts tr

end

/-- The evaluation with its record. -/
def tracedArithmetic (x : ParameterExpander) (expr : List Char) (s : ShellState) :
    Option (Value × Traced) :=
  (Bytes.arithTokenize x (trim expr) s).map fun tokens =>
    let r := tracedExpr (tracedAssign maxArithDepth) tokens.1 ⟨some tokens.2, []⟩
    (r.1, r.2.2)

/-- What the evaluation does. -/
def stepsOf (x : ParameterExpander) (expr : List Char) (s : ShellState) : List Step :=
  ((tracedArithmetic x expr s).map fun r => r.2.steps).getD []

/-! ## 3. Pending errors -/

/-- What leaves a message in `_ARITH_ERROR`. -/
def Step.Reports : Step → Prop
  | guard => True
  | divided op => op = .slash ∨ op = .percent
  | assigned _ _ _ target => target = some "_ARITH_ERROR"
  | stepped target => target = some "_ARITH_ERROR"

section Pending

variable {s s' : ShellState}

theorem pending_iff : s.takeArithError.1.isSome = true ↔
    ∃ v, s.env.get "_ARITH_ERROR" = some v ∧ v.value.asScalar ≠ "" := by
  unfold ShellState.takeArithError ShellState.takePending
  cases hget : s.env.get "_ARITH_ERROR" with
  | none =>
    constructor
    · intro h
      cases h
    · rintro ⟨v, hv, -⟩
      cases hv
  | some v =>
    dsimp only
    constructor
    · intro h
      refine ⟨v, rfl, ?_⟩
      intro hempty
      rw [if_pos hempty] at h
      cases h
    · rintro ⟨w, hw, hne⟩
      cases hw
      rw [if_neg hne]
      rfl

theorem pending_setEntry {message : String} (hne : message ≠ "") :
    (s.setEntry "_ARITH_ERROR" (.ofScalar message)).takeArithError.1.isSome = true := by
  rw [pending_iff]
  exact ⟨.ofScalar message, by rw [ShellState.get_setEntry, if_pos rfl], hne⟩

theorem pending_congr (h : s'.env.get "_ARITH_ERROR" = s.env.get "_ARITH_ERROR") :
    s'.takeArithError.1.isSome = true ↔ s.takeArithError.1.isSome = true := by
  rw [pending_iff, pending_iff, h]

theorem number_ne_empty (n : Int64) : toString n.toInt ≠ "" := by
  have hnat : ∀ m : Nat, (toString m).toList ≠ [] := by
    intro m
    have hlist : (toString m).toList = Nat.toDigits 10 m := Nat.toList_repr
    rw [hlist]
    exact Nat.toDigits_ne_nil
  intro hempty
  cases hn : n.toInt with
  | ofNat m =>
    rw [hn] at hempty
    exact hnat m (congrArg String.toList hempty)
  | negSucc m =>
    have htext : toString (Int.negSucc m) = "-" ++ toString (m + 1) := rfl
    rw [hn, htext] at hempty
    have hlist := congrArg String.toList hempty
    rw [String.toList_append] at hlist
    exact hnat (m + 1) (List.append_eq_nil_iff.mp hlist).2

/-- A write leaves a message pending, unless there is one, only in `_ARITH_ERROR` itself. -/
theorem pending_varSet {name : List Char} {value : Int64}
    (h : varSet name value (some s) = some s') :
    s'.takeArithError.1.isSome = true ↔
      s.takeArithError.1.isSome = true ∨ written name (some s) = some "_ARITH_ERROR" := by
  rw [varSet_some, Option.map_eq_some_iff] at h
  obtain ⟨target, htarget, rfl⟩ := h
  have hwritten : written name (some s) =
      (some target).filter fun target => !s.isVarReadonly target := by
    rw [← htarget]
    rfl
  cases hro : s.isVarReadonly target with
  | true =>
    have hnone : written name (some s) = none := by
      rw [hwritten, Option.filter_some, hro]
      rfl
    rw [ShellState.writeVar_of_readonly hro, hnone]
    simp
  | false =>
    have hsome : written name (some s) = some target := by
      rw [hwritten, Option.filter_some, hro]
      rfl
    rw [hsome, Option.some.injEq]
    by_cases herror : target = "_ARITH_ERROR"
    · subst herror
      have hpending : (s.writeVar "_ARITH_ERROR" (toString value.toInt)).takeArithError.1.isSome =
          true := by
        rw [pending_iff]
        exact ⟨_, ShellState.get_writeVar hro _, number_ne_empty value⟩
      exact iff_of_true hpending (Or.inr rfl)
    · rw [pending_congr (ShellState.get_writeVar_of_ne herror _)]
      simp [herror]

end Pending

/-! ## 4. What the record says -/

/-- The operators that divide. -/
def divisions : List ArithToken := [.slash, .percent, .slashEq, .percentEq]

/-- The record of an evaluation that has begun in `s₁`. -/
structure Recorded (s₁ : ShellState) (tr : Traced) : Prop where
  pending : ∀ s, tr.state = some s → (s.takeArithError.1.isSome = true ↔
    s₁.takeArithError.1.isSome = true ∨ ∃ step ∈ tr.steps, step.Reports)
  value : ∀ op rhs value target, .assigned op rhs value target ∈ tr.steps →
    (value.byZero = true ↔ op = .eq ∧ rhs.byZero = true ∨ DividesByZero op rhs)
  division : ∀ op, .divided op ∈ tr.steps → op ∈ divisions

section Recorded

variable {s₁ : ShellState} {tr : Traced}

theorem exists_mem_append {steps new : List Step} :
    (∃ step ∈ steps ++ new, step.Reports) ↔
      (∃ step ∈ steps, step.Reports) ∨ ∃ step ∈ new, step.Reports := by
  simp only [List.mem_append, or_and_right, exists_or]

/-- An error that is reported. -/
theorem Recorded.report (h : Recorded s₁ tr) {message : String} (hne : message ≠ "")
    {step : Step} (hstep : step = .guard ∨ step = .divided .slash ∨ step = .divided .percent) :
    Recorded s₁ ⟨setArithError message tr.state, tr.steps ++ [step]⟩ := by
  have hreports : step.Reports := by
    rcases hstep with rfl | rfl | rfl
    · exact trivial
    · exact Or.inl rfl
    · exact Or.inr rfl
  constructor
  · intro s hs
    obtain ⟨s₀, -, rfl⟩ := Option.map_eq_some_iff.mp hs
    have hmem : ∃ step' ∈ tr.steps ++ [step], step'.Reports := ⟨step, by simp, hreports⟩
    exact iff_of_true (pending_setEntry hne) (Or.inr hmem)
  · intro op rhs value target hmem
    rcases List.mem_append.mp hmem with hmem | hmem
    · exact h.value op rhs value target hmem
    · rw [List.mem_singleton] at hmem
      rcases hstep with rfl | rfl | rfl
      all_goals cases hmem
  · intro op hmem
    rcases List.mem_append.mp hmem with hmem | hmem
    · exact h.division op hmem
    · rw [List.mem_singleton] at hmem
      subst hmem
      rcases hstep with hstep | hstep | hstep
      · cases hstep
      · cases hstep
        decide
      · cases hstep
        decide

/-- A write, and what is recorded of it. -/
theorem Recorded.write (h : Recorded s₁ tr) (name : List Char) (value : Int64) {new : List Step}
    (hreports : (∃ step ∈ new, step.Reports) ↔ written name tr.state = some "_ARITH_ERROR")
    (hvalue : ∀ op rhs value target, .assigned op rhs value target ∈ new →
      (value.byZero = true ↔ op = .eq ∧ rhs.byZero = true ∨ DividesByZero op rhs))
    (hdivision : ∀ op, .divided op ∈ new → op ∈ divisions) :
    Recorded s₁ ⟨varSet name value tr.state, tr.steps ++ new⟩ := by
  constructor
  · intro s hs
    obtain ⟨s₀, hs₀, -⟩ := Option.bind_eq_some_iff.mp hs
    have hs : varSet name value tr.state = some s := hs
    rw [hs₀] at hs hreports
    rw [pending_varSet hs, h.pending s₀ hs₀, exists_mem_append, hreports, or_assoc]
  · intro op rhs value target hmem
    rcases List.mem_append.mp hmem with hmem | hmem
    · exact h.value op rhs value target hmem
    · exact hvalue op rhs value target hmem
  · intro op hmem
    rcases List.mem_append.mp hmem with hmem | hmem
    · exact h.division op hmem
    · exact hdivision op hmem

/-- Reading a variable leaves no error and is not recorded. -/
theorem Recorded.read (h : Recorded s₁ tr) (name : List Char) :
    Recorded s₁ ⟨(varGet name tr.state).2, tr.steps⟩ := by
  refine ⟨?_, h.value, h.division⟩
  intro s hs
  cases hstate : tr.state with
  | none =>
    have hs : (varGet name tr.state).2 = some s := hs
    rw [hstate] at hs
    cases hs
  | some s₀ =>
    rcases varGet_some name s₀ with ⟨seed, hread⟩
    have hs : (varGet name tr.state).2 = some s := hs
    rw [hstate, hread] at hs
    cases hs
    exact (@pending_congr s₀ { s₀ with randomSeed := seed } rfl).trans (h.pending s₀ hstate)

theorem Recorded.assignRead (h : Recorded s₁ tr) (op : ArithToken) (name : List Char) :
    Recorded s₁ ⟨(assignRead op name tr.state).2, tr.steps⟩ := by
  unfold Arith.assignRead
  split
  · exact h
  · exact h.read name

theorem Recorded.step (h : Recorded s₁ tr) (name : List Char) (delta : Int64) :
    Recorded s₁ (tracedStep name delta tr) := by
  apply (h.read name).write
  · simp [Step.Reports]
  · intro op rhs value target hmem
    simp at hmem
  · intro op hmem
    simp at hmem

theorem Recorded.assigned (h : Recorded s₁ tr) (name : List Char) (op : ArithToken)
    (apply : Int64 → Int64 → Int64) (current : Int64) (rhs : Value) :
    Recorded s₁ (tracedWrite name op (assignValue op apply current rhs) rhs tr) := by
  have hsteps : tracedWrite name op (assignValue op apply current rhs) rhs tr =
      ⟨varSet name (apply current rhs.number) tr.state,
        tr.steps ++ ((if DividesByZero op rhs then [.divided op] else []) ++
          [.assigned op rhs (assignValue op apply current rhs) (written name tr.state)])⟩ := by
    rw [← List.append_assoc]
    rfl
  rw [hsteps]
  apply h.write
  · rw [exists_mem_append]
    have hsilent : ¬ ∃ step ∈ (if DividesByZero op rhs then [Step.divided op] else []),
        step.Reports := by
      rintro ⟨step, hmem, hreports⟩
      split at hmem
      · next hzero =>
        rw [List.mem_singleton] at hmem
        subst hmem
        rcases hzero.1 with rfl | rfl
        all_goals
          rcases hreports with hreports | hreports
          all_goals cases hreports
      · cases hmem
    rw [or_iff_right hsilent]
    simp [Step.Reports]
  · intro op' rhs' value' target' hmem
    rcases List.mem_append.mp hmem with hmem | hmem
    · split at hmem
      · simp at hmem
      · cases hmem
    · rw [List.mem_singleton] at hmem
      cases hmem
      simp [assignValue]
  · intro op' hmem
    rcases List.mem_append.mp hmem with hmem | hmem
    · split at hmem
      · next hzero =>
        rw [List.mem_singleton] at hmem
        cases hmem
        rcases hzero.1 with rfl | rfl
        · decide
        · decide
      · cases hmem
    · rw [List.mem_singleton] at hmem
      cases hmem

end Recorded

/-! ## 5. The record changes nothing -/

section Follows

variable {s₁ : ShellState}

theorem tracedOp_follows (n : Nat) :
    FollowsOp Value.number Traced.state (Recorded s₁) (tracedOp (opAt n)) (opAt n) := by
  intro t
  unfold tracedOp
  cases hact : opAt n t with
  | none => exact Or.inl ⟨rfl, rfl⟩
  | some act =>
    refine Or.inr ⟨tracedAction t act, act, rfl, rfl, ?_⟩
    intro v w tr h
    rcases opAt_some hact with ⟨op, -, rfl, rfl⟩
    unfold tracedAction
    dsimp only
    by_cases hzero : (op.token = .slash ∨ op.token = .percent) ∧ w.number = 0
    · have hdivided : op.apply v.number w.number tr.state =
          (0, setArithError divisionByZero tr.state) := by
        rcases hzero with ⟨hop, hw⟩
        cases op with
        | slash => exact if_pos hw
        | percent => exact if_pos hw
        | _ =>
          rcases hop with hop | hop
          all_goals cases hop
      rw [if_pos hzero, hdivided]
      refine ⟨h.report (by decide) ?_, rfl⟩
      exact Or.inr (hzero.1.imp (congrArg _) (congrArg _))
    · have hpure : (op.apply v.number w.number tr.state).2 = tr.state := by
        cases op with
        | slash => exact congrArg Prod.snd (if_neg fun hw => hzero ⟨Or.inl rfl, hw⟩)
        | percent => exact congrArg Prod.snd (if_neg fun hw => hzero ⟨Or.inr rfl, hw⟩)
        | _ => rfl
      rw [if_neg hzero]
      dsimp only
      rw [hpure]
      exact ⟨h, Prod.ext rfl hpure⟩

theorem tracedTower_follows {exponentiation : ArithParser} {traced : TracedParser}
    (h : Follows Value.number Traced.state (Recorded s₁) traced exponentiation) (n : Nat) :
    Follows Value.number Traced.state (Recorded s₁) (tracedTower traced n)
      (tower exponentiation n) := by
  induction n with
  | zero => exact h
  | succ n ih => exact level_follows ih (tracedOp_follows n)

theorem tracedComma_follows :
    FollowsOp Value.number Traced.state (Recorded s₁) tracedComma commaOp := by
  intro t
  cases t with
  | comma => exact Or.inr ⟨_, _, rfl, rfl, fun _ _ _ h => ⟨h, rfl⟩⟩
  | _ => exact Or.inl ⟨rfl, rfl⟩

theorem tracedExpr_follows {assign : ArithParser} {traced : TracedParser}
    (h : Follows Value.number Traced.state (Recorded s₁) traced assign) :
    Follows Value.number Traced.state (Recorded s₁) (tracedExpr traced) (parseExpr assign) :=
  level_follows h tracedComma_follows

theorem tracedTernary_follows {assign exponentiation : ArithParser}
    {traced traced' : TracedParser}
    (hassign : Follows Value.number Traced.state (Recorded s₁) traced assign)
    (hexponentiation : Follows Value.number Traced.state (Recorded s₁) traced' exponentiation) :
    Follows Value.number Traced.state (Recorded s₁) (tracedTernary traced traced')
      (parseTernary assign exponentiation) := by
  intro ts tr h
  rcases tracedTower_follows hexponentiation 10 ts tr h with ⟨hinv, hcond⟩
  rw [parseTernary_eq]
  dsimp only [tracedTernary]
  rw [hcond]
  generalize tracedTower traced' 10 ts tr = cond at hinv ⊢
  rcases cond with ⟨v, rest, tr'⟩
  cases rest with
  | nil => exact ⟨hinv, rfl⟩
  | cons t rest =>
    cases t with
    | question =>
      rcases hassign rest tr' hinv with ⟨hinv', hthen⟩
      rcases hassign (eat .colon (traced rest tr').2.1) _ hinv' with ⟨hinv'', helse⟩
      refine ⟨hinv'', ?_⟩
      dsimp only [ternaryTail, forget]
      rw [hthen]
      dsimp only [forget]
      rw [helse]
      split
      · rfl
      · rfl
    | _ => exact ⟨hinv, rfl⟩

theorem tracedPrimary_follows {assign : ArithParser} {traced : TracedParser}
    (h : Follows Value.number Traced.state (Recorded s₁) traced assign) :
    Follows Value.number Traced.state (Recorded s₁) (tracedPrimary traced)
      (parsePrimary assign) := by
  intro ts tr hinv
  cases ts with
  | nil => exact ⟨hinv, rfl⟩
  | cons t ts =>
    cases t with
    | ident name =>
      cases ts with
      | nil => exact ⟨hinv.read name, rfl⟩
      | cons t ts =>
        cases t with
        | plusPlus => exact ⟨hinv.step name 1, rfl⟩
        | minusMinus =>
          refine ⟨hinv.step name (-1), ?_⟩
          have hsub : (varGet name tr.state).1 - 1 = (varGet name tr.state).1 + -1 :=
            Int64.sub_eq_add_neg _ _
          dsimp only [parsePrimary, tracedPrimary, forget, tracedStep]
          rw [hsub]
        | _ => exact ⟨hinv.read name, rfl⟩
    | lParen =>
      rcases tracedExpr_follows h ts tr hinv with ⟨hinv', hexpr⟩
      refine ⟨hinv', ?_⟩
      rw [parsePrimary_paren, hexpr]
      rfl
    | _ => exact ⟨hinv, rfl⟩

theorem tracedPreIncdec_follows (delta : Int64) :
    Follows Value.number Traced.state (Recorded s₁) (tracedPreIncdec delta)
      (parsePreIncdec delta) := by
  intro ts tr h
  cases ts with
  | nil => exact ⟨h, rfl⟩
  | cons t ts =>
    cases t with
    | ident name => exact ⟨h.step name delta, rfl⟩
    | _ => exact ⟨h, rfl⟩

theorem tracedUnary_follows {room : Nat}
    (hassign : Follows Value.number Traced.state (Recorded s₁) (tracedAssign room)
      (parseAssign room))
    (hunary : Follows Value.number Traced.state (Recorded s₁) (tracedUnary room)
      (parseUnary room)) :
    Follows Value.number Traced.state (Recorded s₁) (tracedUnary (room + 1))
      (parseUnary (room + 1)) := by
  have hprimary := tracedPrimary_follows hassign
  intro ts tr h
  cases ts with
  | nil => exact hprimary [] tr h
  | cons t ts =>
    have hother := hprimary (t :: ts) tr h
    have hoperand := hunary ts tr h
    cases t with
    | bang | tilde | minus =>
      refine ⟨hoperand.1, ?_⟩
      dsimp only [parseUnary, tracedUnary]
      rw [hoperand.2]
      rfl
    | plus => exact hoperand
    | plusPlus => exact tracedPreIncdec_follows 1 ts tr h
    | minusMinus => exact tracedPreIncdec_follows (-1) ts tr h
    | _ => exact hother

theorem tracedExponentiation_follows {room : Nat}
    (hexponentiation : Follows Value.number Traced.state (Recorded s₁)
      (tracedExponentiation room) (parseExponentiation room))
    (hunary : Follows Value.number Traced.state (Recorded s₁) (tracedUnary room)
      (parseUnary room)) :
    Follows Value.number Traced.state (Recorded s₁) (tracedExponentiation (room + 1))
      (parseExponentiation (room + 1)) := by
  intro ts tr h
  rcases hunary ts tr h with ⟨hinv, hbase⟩
  rw [parseExponentiation_succ]
  dsimp only [tracedExponentiation]
  rw [hbase]
  generalize tracedUnary room ts tr = base at hinv ⊢
  rcases base with ⟨v, rest, tr'⟩
  cases rest with
  | nil => exact ⟨hinv, rfl⟩
  | cons t rest =>
    cases t with
    | starStar =>
      rcases hexponentiation rest tr' hinv with ⟨hinv', hexp⟩
      refine ⟨hinv', ?_⟩
      dsimp only [powTail, forget]
      rw [hexp]
      rfl
    | _ => exact ⟨hinv, rfl⟩

theorem tracedAssign_assignment {op : ArithToken} {apply : Int64 → Int64 → Int64}
    (hop : assignOp op = some apply) (room : Nat) (name : List Char) (rest : List ArithToken)
    (tr : Traced) :
    tracedAssign (room + 1) (.ident name :: op :: rest) tr =
      let rhs := tracedAssign room rest tr
      let cur := assignRead op name rhs.2.2.state
      let value := assignValue op apply cur.1 rhs.1
      (value, rhs.2.1, tracedWrite name op value rhs.1 ⟨cur.2, rhs.2.2.steps⟩) := by
  simp only [tracedAssign, hop]

theorem parseAssign_assignment {op : ArithToken} {apply : Int64 → Int64 → Int64}
    (hop : assignOp op = some apply) (room : Nat) (name : List Char) (rest : List ArithToken)
    (st : ArithState) :
    parseAssign (room + 1) (.ident name :: op :: rest) st =
      let rhs := parseAssign room rest st
      let cur := assignRead op name rhs.2.2
      let result := apply cur.1 rhs.1
      (result, rhs.2.1, varSet name result cur.2) := by
  simp only [parseAssign, hop]

theorem tracedAssign_ternary {ts : List ArithToken} (h : NoAssign ts) (room : Nat) (tr : Traced) :
    tracedAssign (room + 1) ts tr =
      tracedTernary (tracedAssign room) (tracedExponentiation room) ts tr := by
  simp only [tracedAssign]
  split
  · next name op rest =>
    rw [h name op rest rfl]
  · rfl

theorem tracedAssign_follows {room : Nat}
    (hassign : Follows Value.number Traced.state (Recorded s₁) (tracedAssign room)
      (parseAssign room))
    (hexponentiation : Follows Value.number Traced.state (Recorded s₁)
      (tracedExponentiation room) (parseExponentiation room)) :
    Follows Value.number Traced.state (Recorded s₁) (tracedAssign (room + 1))
      (parseAssign (room + 1)) := by
  intro ts tr h
  by_cases hnone : NoAssign ts
  · have hternary := tracedTernary_follows hassign hexponentiation ts tr h
    rw [parseTernary_eq] at hternary
    rw [parseAssign_ternary hnone, tracedAssign_ternary hnone]
    exact hternary
  · have hassignment : ∃ name op rest apply, ts = .ident name :: op :: rest ∧
        assignOp op = some apply := by
      by_contra hother
      apply hnone
      intro name op rest hts
      cases hop : assignOp op with
      | none => rfl
      | some apply => exact absurd ⟨name, op, rest, apply, hts, hop⟩ hother
    rcases hassignment with ⟨name, op, rest, apply, rfl, hop⟩
    rcases hassign rest tr h with ⟨hinv, hrhs⟩
    rw [tracedAssign_assignment hop, parseAssign_assignment hop, hrhs]
    generalize tracedAssign room rest tr = r at hinv ⊢
    rcases r with ⟨rhs, left, tr'⟩
    exact ⟨(hinv.assignRead op name).assigned name op apply _ rhs, rfl⟩

/-- The parsers with the record are the parsers. -/
theorem traced_follows (room : Nat) :
    Follows Value.number Traced.state (Recorded s₁) (tracedAssign room) (parseAssign room) ∧
      Follows Value.number Traced.state (Recorded s₁) (tracedExponentiation room)
        (parseExponentiation room) ∧
      Follows Value.number Traced.state (Recorded s₁) (tracedUnary room) (parseUnary room) := by
  induction room with
  | zero =>
    have hlimit : Follows Value.number Traced.state (Recorded s₁) tracedLimit limitReached := by
      intro ts tr h
      exact ⟨h.report (by decide) (Or.inl rfl), rfl⟩
    exact ⟨hlimit, hlimit, hlimit⟩
  | succ room ih =>
    rcases ih with ⟨hassign, hexponentiation, hunary⟩
    exact ⟨tracedAssign_follows hassign hexponentiation,
      tracedExponentiation_follows hexponentiation hunary, tracedUnary_follows hassign hunary⟩

end Follows

/-! ## 6. The evaluation -/

section Evaluation

variable {x : ParameterExpander} {text : List Char} {s s' : ShellState} {v : Int64}

/-- `eval_arithmetic`, whether or not there are tokens. -/
theorem evalArithmetic_tokens (x : ParameterExpander) (text : List Char) (s : ShellState) :
    Bytes.evalArithmetic x text s =
      (Bytes.arithTokenize x (trim text) s).bind fun tokens =>
        (parseExpr (parseAssign maxArithDepth) tokens.1 (some tokens.2)).2.2.map fun s' =>
          ((parseExpr (parseAssign maxArithDepth) tokens.1 (some tokens.2)).1, s') := by
  rw [evalArithmetic_eq, arithTokenize_lexemes]

/-- The record of an expression, from its tokens. -/
theorem tracedExpr_recorded (ts : List ArithToken) (s₁ : ShellState) :
    Recorded s₁ (tracedExpr (tracedAssign maxArithDepth) ts ⟨some s₁, []⟩).2.2 ∧
      parseExpr (parseAssign maxArithDepth) ts (some s₁) =
        forget Value.number Traced.state
          (tracedExpr (tracedAssign maxArithDepth) ts ⟨some s₁, []⟩) := by
  apply tracedExpr_follows (traced_follows maxArithDepth).1
  constructor
  · intro s hs
    obtain rfl : s₁ = s := Option.some.inj hs
    simp
  · intro op rhs value target hmem
    cases hmem
  · intro op hmem
    cases hmem

/-- The evaluation with the record is the evaluation. -/
theorem tracedArithmetic_eval (x : ParameterExpander) (text : List Char) (s : ShellState) :
    Bytes.evalArithmetic x text s =
      (tracedArithmetic x text s).bind fun r => r.2.state.map fun s' => (r.1.number, s') := by
  rw [evalArithmetic_tokens, tracedArithmetic, Option.bind_map]
  congr 1
  funext tokens
  rw [(tracedExpr_recorded tokens.1 tokens.2).2]
  rfl

/-- What is recorded where the evaluation returns. -/
theorem recorded_of_eval (h : Bytes.evalArithmetic x text s = some (v, s')) :
    ∃ ts s₁, Bytes.arithTokenize x (trim text) s = some (ts, s₁) ∧
      Recorded s₁ ⟨some s', stepsOf x text s⟩ := by
  rw [tracedArithmetic_eval, Option.bind_eq_some_iff] at h
  obtain ⟨r, hr, hstate⟩ := h
  have hsteps : stepsOf x text s = r.2.steps := by
    rw [stepsOf, hr]
    rfl
  obtain ⟨⟨ts, s₁⟩, htokens, rfl⟩ := Option.map_eq_some_iff.mp hr
  obtain ⟨s'', hs'', heq⟩ := Option.map_eq_some_iff.mp hstate
  obtain rfl : s'' = s' := congrArg Prod.snd heq
  refine ⟨ts, s₁, htokens, ?_⟩
  rw [hsteps, ← hs'']
  exact (tracedExpr_recorded ts s₁).1

/-- Division by zero is not silent: an error is pending after it, and no variable has been
    assigned what it came to. -/
def Reported (steps : List Step) (s' : ShellState) : Prop :=
  ((∃ op, .divided op ∈ steps) → ∃ message, s'.takeArithError.1 = some message) ∧
    ∀ op rhs value target, .assigned op rhs value (some target) ∈ steps → value.byZero = false

/-- **Divisions by zero.**  None is silent if and only if no variable is assigned the value of a
    division by zero, or divided by zero, and a division of a read-only variable by zero is not
    the only one that might report an error. -/
theorem division_reported_iff (h : Bytes.evalArithmetic x text s = some (v, s')) :
    Reported (stepsOf x text s) s' ↔
      (∀ op rhs value target, .assigned op rhs value (some target) ∈ stepsOf x text s →
        ¬ (op = .eq ∧ rhs.byZero = true) ∧
          ¬ ((op = .slashEq ∨ op = .percentEq) ∧ rhs.number = 0)) ∧
      ((∃ op, (op = .slashEq ∨ op = .percentEq) ∧ .divided op ∈ stepsOf x text s) →
        (∃ ts s₁, Bytes.arithTokenize x (trim text) s = some (ts, s₁) ∧
          s₁.takeArithError.1.isSome = true) ∨
        ∃ step ∈ stepsOf x text s, step.Reports) := by
  obtain ⟨ts, s₁, htokens, hrecorded⟩ := recorded_of_eval h
  have hmessage : (∃ message, s'.takeArithError.1 = some message) ↔
      s'.takeArithError.1.isSome = true := Option.isSome_iff_exists.symm
  have hpending : s'.takeArithError.1.isSome = true ↔
      (∃ ts s₁, Bytes.arithTokenize x (trim text) s = some (ts, s₁) ∧
        s₁.takeArithError.1.isSome = true) ∨
      ∃ step ∈ stepsOf x text s, step.Reports := by
    rw [hrecorded.pending s' rfl, htokens]
    refine or_congr ?_ Iff.rfl
    constructor
    · intro hbefore
      exact ⟨ts, s₁, rfl, hbefore⟩
    · rintro ⟨ts', s₁', heq, hbefore⟩
      cases heq
      exact hbefore
  rw [Reported, hmessage, hpending, and_comm]
  apply and_congr
  · refine forall₄_congr fun op rhs value target => forall_congr' fun hmem => ?_
    rw [← Bool.not_eq_true, hrecorded.value op rhs value (some target) hmem, not_or]
    rfl
  · constructor
    · rintro hreported ⟨op, -, hmem⟩
      exact hreported ⟨op, hmem⟩
    · rintro hsilent ⟨op, hmem⟩
      have hop := hrecorded.division op hmem
      simp only [divisions, List.mem_cons, List.not_mem_nil, or_false] at hop
      rcases hop with rfl | rfl | rfl | rfl
      · exact Or.inr ⟨_, hmem, Or.inl rfl⟩
      · exact Or.inr ⟨_, hmem, Or.inr rfl⟩
      · exact hsilent ⟨_, Or.inl rfl, hmem⟩
      · exact hsilent ⟨_, Or.inr rfl, hmem⟩

/-- `x += 5 / 0`. -/
theorem division_reported : ∃ v s',
    Bytes.evalArithmetic unsetParameters "x += 5 / 0".toList ShellState.new = some (v, s') ∧
      Reported (stepsOf unsetParameters "x += 5 / 0".toList ShellState.new) s' := by
  have hreturns : (Bytes.evalArithmetic unsetParameters "x += 5 / 0".toList
      ShellState.new).isSome = true := by decide +kernel
  have hsteps : stepsOf unsetParameters "x += 5 / 0".toList ShellState.new =
      [.divided .slash, .assigned .plusEq ⟨0, true⟩ ⟨0, false⟩ (some "x")] := by decide +kernel
  obtain ⟨⟨v, s'⟩, h⟩ := Option.isSome_iff_exists.mp hreturns
  refine ⟨v, s', h, (division_reported_iff h).mpr ?_⟩
  rw [hsteps]
  constructor
  · intro op rhs value target hmem
    rw [List.mem_cons, List.mem_singleton] at hmem
    rcases hmem with hmem | hmem
    · cases hmem
    · cases hmem
      decide
  · rintro -
    exact Or.inr ⟨.divided .slash, List.mem_cons_self, Or.inl rfl⟩

/-- `x /= 0` leaves no error pending, and `x` holds zero after it, as after `x = 1 / 0`. -/
theorem division_is_silent :
    (Bytes.evalArithmetic unsetParameters "x /= 0".toList ShellState.new).map
        (fun r => (r.1, r.2.takeArithError.1.isSome, r.2.getVar "x")) =
      some (0, false, some "0") ∧
    (Bytes.evalArithmetic unsetParameters "x = 1 / 0".toList ShellState.new).map
        (fun r => (r.1, r.2.takeArithError.1.isSome, r.2.getVar "x")) =
      some (0, true, some "0") := by
  decide +kernel

end Evaluation

end Wasmsh.Divisions

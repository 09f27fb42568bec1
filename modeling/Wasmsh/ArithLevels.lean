import Wasmsh.ArithTrees

/-!
# The levels of the arithmetic parser

The ten levels of left-associative operators are one family, and the parsers of all places take
their tokens from the front and keep what their steps keep.  That is all that is known of what
is read after the guard of the recursion has returned without taking a token.
-/

namespace Wasmsh.Arith

open Chains

variable {rest : List ArithToken}

/-! ## 1. The levels as one family -/

/-- The operators of a level. -/
def opAt : Nat → ArithToken → Option (Action ArithState Int64)
  | 0 => multiplicativeOp
  | 1 => additiveOp
  | 2 => shiftOp
  | 3 => relationalOp
  | 4 => equalityOp
  | 5 => bitwiseAndOp
  | 6 => bitwiseXorOp
  | 7 => bitwiseOrOp
  | 8 => logicalAndOp
  | 9 => logicalOrOp
  | _ => fun _ => none

/-- The parser of the operators below a level. -/
def tower (exponentiation : ArithParser) : Nat → ArithParser
  | 0 => exponentiation
  | n + 1 => level (opAt n) (tower exponentiation n)

theorem parseLogicalOr_eq (exponentiation : ArithParser) :
    parseLogicalOr exponentiation = tower exponentiation 10 := rfl

theorem opAt_token (op : BinOp) : opAt op.level op.token = some op.apply := by
  cases op <;> rfl

theorem opAt_some {n : Nat} {t : ArithToken} {act : Action ArithState Int64}
    (h : opAt n t = some act) : ∃ op : BinOp, op.level = n ∧ op.token = t ∧ op.apply = act := by
  match n with
  | 0 =>
    simp only [opAt, multiplicativeOp] at h
    split at h <;> cases h
    · exact ⟨.star, rfl, rfl, rfl⟩
    · exact ⟨.slash, rfl, rfl, rfl⟩
    · exact ⟨.percent, rfl, rfl, rfl⟩
  | 1 =>
    simp only [opAt, additiveOp] at h
    split at h <;> cases h
    · exact ⟨.plus, rfl, rfl, rfl⟩
    · exact ⟨.minus, rfl, rfl, rfl⟩
  | 2 =>
    simp only [opAt, shiftOp] at h
    split at h <;> cases h
    · exact ⟨.lShift, rfl, rfl, rfl⟩
    · exact ⟨.rShift, rfl, rfl, rfl⟩
  | 3 =>
    simp only [opAt, relationalOp] at h
    split at h <;> cases h
    · exact ⟨.lt, rfl, rfl, rfl⟩
    · exact ⟨.gt, rfl, rfl, rfl⟩
    · exact ⟨.le, rfl, rfl, rfl⟩
    · exact ⟨.ge, rfl, rfl, rfl⟩
  | 4 =>
    simp only [opAt, equalityOp] at h
    split at h <;> cases h
    · exact ⟨.eqEq, rfl, rfl, rfl⟩
    · exact ⟨.ne, rfl, rfl, rfl⟩
  | 5 =>
    simp only [opAt, bitwiseAndOp] at h
    split at h <;> cases h
    exact ⟨.amp, rfl, rfl, rfl⟩
  | 6 =>
    simp only [opAt, bitwiseXorOp] at h
    split at h <;> cases h
    exact ⟨.caret, rfl, rfl, rfl⟩
  | 7 =>
    simp only [opAt, bitwiseOrOp] at h
    split at h <;> cases h
    exact ⟨.pipe, rfl, rfl, rfl⟩
  | 8 =>
    simp only [opAt, logicalAndOp] at h
    split at h <;> cases h
    exact ⟨.ampAmp, rfl, rfl, rfl⟩
  | 9 =>
    simp only [opAt, logicalOrOp] at h
    split at h <;> cases h
    exact ⟨.pipePipe, rfl, rfl, rfl⟩
  | n + 10 => cases h

section Primary

variable (assign : ArithParser) (name : List Char) (rest : List ArithToken) (st : ArithState)

theorem parsePrimary_number (n : Int64) :
    parsePrimary assign (.number n :: rest) st = (n, rest, st) := rfl

theorem parsePrimary_paren : parsePrimary assign (.lParen :: rest) st =
    ((parseExpr assign rest st).1, eat .rParen (parseExpr assign rest st).2.1,
      (parseExpr assign rest st).2.2) := rfl

theorem parsePrimary_post (op : StepOp) :
    parsePrimary assign (.ident name :: op.token :: rest) st =
      ((varGet name st).1, rest, varSet name (op.apply (varGet name st).1) (varGet name st).2) := by
  cases op <;> rfl

theorem parsePrimary_name (h : ∀ t ∈ rest.head?, t ≠ .plusPlus ∧ t ≠ .minusMinus) :
    parsePrimary assign (.ident name :: rest) st =
      ((varGet name st).1, rest, (varGet name st).2) := by
  cases rest with
  | nil => rfl
  | cons t rest =>
    have ht := h t rfl
    cases t <;> first | rfl | exact absurd rfl ht.1 | exact absurd rfl ht.2

/-- `parse_primary` takes a token, reading a variable at most, or it is at a step of a name or
    at a parenthesis. -/
theorem parsePrimary_cases (ts : List ArithToken) :
    (∃ v st', parsePrimary assign ts st = (v, ts.tail, st') ∧
        (st' = st ∨ ∃ name, st' = (varGet name st).2)) ∨
      (∃ (name : List Char) (op : StepOp) (rest : List ArithToken),
        ts = .ident name :: op.token :: rest) ∨ ∃ rest, ts = .lParen :: rest := by
  cases ts with
  | nil => exact Or.inl ⟨0, st, rfl, Or.inl rfl⟩
  | cons t rest =>
    cases t with
    | ident name =>
      by_cases hstep : ∃ (op : StepOp) (us : List ArithToken), rest = op.token :: us
      · rcases hstep with ⟨op, us, rfl⟩
        exact Or.inr (Or.inl ⟨name, op, us, rfl⟩)
      · left
        refine ⟨_, _, parsePrimary_name assign name rest st fun t ht => ⟨?_, ?_⟩,
          Or.inr ⟨name, rfl⟩⟩
        · rintro rfl
          exact hstep ⟨.up, rest.tail, List.eq_cons_of_mem_head? ht⟩
        · rintro rfl
          exact hstep ⟨.down, rest.tail, List.eq_cons_of_mem_head? ht⟩
    | lParen => exact Or.inr (Or.inr ⟨rest, rfl⟩)
    | _ => exact Or.inl ⟨_, _, rfl, Or.inl rfl⟩

end Primary

/-- The parser of a place. -/
def parserAt (room : Nat) : Slot → ArithParser
  | .operand => parseUnary room
  | .chain n => tower (parseExponentiation room) n
  | .assignment => parseAssign room
  | .any => parseExpr (parseAssign room)

/-- The rank of the first place in which reading goes on over a token; zero for a token that
    does not follow an expression. -/
def ArithToken.reach : ArithToken → Nat
  | .starStar => 1
  | .star | .slash | .percent => 2
  | .plus | .minus => 3
  | .lShift | .rShift => 4
  | .lt | .gt | .le | .ge => 5
  | .eqEq | .ne => 6
  | .amp => 7
  | .caret => 8
  | .pipe => 9
  | .ampAmp => 10
  | .pipePipe => 11
  | .question => 12
  | .comma => 13
  | .colon | .rParen => 14
  | _ => 0

theorem BinOp.reach_token (op : BinOp) : op.token.reach = op.level + 2 := by
  cases op <;> rfl

/-- Reading in a place ends before these tokens. -/
def Stops (place : Slot) (rest : List ArithToken) : Prop :=
  ∀ t ∈ rest.head?, place.rank < t.reach

theorem stops_cons {place : Slot} {t : ArithToken} :
    Stops place (t :: rest) ↔ place.rank < t.reach := by
  simp [Stops]

theorem stops_nil (place : Slot) : Stops place [] := by
  simp [Stops]

theorem Stops.mono {place place' : Slot} (h : Stops place rest)
    (hle : place'.rank ≤ place.rank) : Stops place' rest :=
  fun t ht => lt_of_le_of_lt hle (h t ht)

/-- No operator of a level follows. -/
theorem Stops.no_operator {n : Nat} (h : Stops (.chain (n + 1)) rest) :
    ∀ t ∈ rest.head?, opAt n t = none := by
  intro t ht
  cases hop : opAt n t with
  | none => rfl
  | some act =>
    rcases opAt_some hop with ⟨op, rfl, rfl, rfl⟩
    have hreach := h _ ht
    rw [op.reach_token] at hreach
    exact absurd hreach (lt_irrefl _)

theorem Stops.no_comma (h : Stops .any rest) :
    ∀ t ∈ rest.head?, commaOp t = none := by
  intro t ht
  have hreach := h t ht
  cases t <;> first | rfl | exact absurd hreach (by decide)

/-- A token that follows an expression assigns nothing. -/
theorem Stops.no_assignment {t : ArithToken} (h : Stops .operand (t :: rest)) :
    assignOp t = none := by
  have hreach := stops_cons.mp h
  cases t <;> first | rfl | exact absurd hreach (by decide)

/-! ## 2. Parsers that have lost their way -/

section Lost

variable {ok : ArithToken → Prop} {bad : ArithState → Prop}

/-- What the steps of the parser keep, as long as the tokens are `ok`. -/
structure Kept (ok : ArithToken → Prop) (bad : ArithState → Prop) : Prop where
  limit : ∀ st, bad st → bad (setArithError recursionLimit st)
  division : ∀ t, t = .slash ∨ t = .percent → ok t →
    ∀ st, bad st → bad (setArithError divisionByZero st)
  write : ∀ t, (assignOp t).isSome ∨ t = .plusPlus ∨ t = .minusMinus → ok t →
    ∀ name value st, bad st → bad (varSet name value st)
  read : ∀ name st, bad st → bad (varGet name st).2

theorem commaOp_sane : SaneOp ok bad commaOp := by
  intro t act hact _ a b st h
  cases t <;> cases hact
  exact h

variable (hkept : Kept ok bad)

include hkept

theorem BinOp.apply_keeps (op : BinOp) (hok : ok op.token) (a b : Int64) (st : ArithState)
    (h : bad st) : bad (op.apply a b st).2 := by
  have hdivision : op.token = .slash ∨ op.token = .percent →
      ∀ f, bad (divisionOp f a b st).2 := by
    intro ht f
    unfold divisionOp
    split
    · exact hkept.division _ ht hok st h
    · exact h
  cases op with
  | slash => exact hdivision (Or.inl rfl) _
  | percent => exact hdivision (Or.inr rfl) _
  | _ => exact h

theorem Kept.assignRead (op : ArithToken) (name : List Char) {st : ArithState} (h : bad st) :
    bad (assignRead op name st).2 := by
  unfold Arith.assignRead
  split
  · exact h
  · exact hkept.read name st h

theorem opAt_sane (n : Nat) : SaneOp ok bad (opAt n) := by
  intro t act hact hok a b st h
  rcases opAt_some hact with ⟨op, rfl, rfl, rfl⟩
  exact op.apply_keeps hkept hok a b st h

theorem limitReached_sane : Sane ok bad limitReached :=
  ⟨fun ts _ => List.suffix_refl ts, fun _ st _ h => hkept.limit st h⟩

theorem tower_sane {exponentiation : ArithParser} (h : Sane ok bad exponentiation) (n : Nat) :
    Sane ok bad (tower exponentiation n) := by
  induction n with
  | zero => exact h
  | succ n ih => exact level_sane ih (opAt_sane hkept n)

omit hkept in
theorem parseExpr_sane {assign : ArithParser} (h : Sane ok bad assign) :
    Sane ok bad (parseExpr assign) :=
  level_sane h commaOp_sane

/-- What a parser does after its first part takes tokens from the front, and keeps what is
    kept. -/
structure SaneTail (ok : ArithToken → Prop) (bad : ArithState → Prop)
    (tail : Result ArithToken ArithState Int64 → Result ArithToken ArithState Int64) : Prop where
  suffix : ∀ r, (tail r).2.1 <:+ r.2.1
  keeps : ∀ r, (∀ t ∈ r.2.1, ok t) → bad r.2.2 → bad (tail r).2.2

omit hkept in
theorem SaneTail.sane {first : ArithParser}
    {tail : Result ArithToken ArithState Int64 → Result ArithToken ArithState Int64}
    (htail : SaneTail ok bad tail) (hfirst : Sane ok bad first) :
    Sane ok bad fun ts st => tail (first ts st) := by
  constructor
  · intro ts st
    exact (htail.suffix _).trans (hfirst.suffix ts st)
  · intro ts st hok h
    exact htail.keeps _ (ok_of_suffix (hfirst.suffix ts st) hok) (hfirst.keeps ts st hok h)

/-- `parse_ternary` after the condition. -/
def ternaryTail (assign : ArithParser) (cond : Result ArithToken ArithState Int64) :
    Result ArithToken ArithState Int64 :=
  match cond.2.1 with
  | .question :: rest =>
    let thenVal := assign rest cond.2.2
    let elseVal := assign (eat .colon thenVal.2.1) thenVal.2.2
    (if cond.1 ≠ 0 then thenVal.1 else elseVal.1, elseVal.2)
  | _ => cond

omit hkept in
theorem parseTernary_eq (assign exponentiation : ArithParser) :
    parseTernary assign exponentiation =
      fun ts st => ternaryTail assign (tower exponentiation 10 ts st) := by
  rw [← parseLogicalOr_eq]
  funext ts st
  generalize hcond : parseLogicalOr exponentiation ts st = cond
  simp only [parseTernary, hcond]
  rfl

omit hkept in
theorem eat_suffix (expected : ArithToken) (ts : List ArithToken) : eat expected ts <:+ ts := by
  cases ts with
  | nil => exact List.suffix_refl _
  | cons t ts =>
    rw [eat]
    split
    · exact List.suffix_cons t ts
    · exact List.suffix_refl _

omit hkept in
theorem ternaryTail_sane {assign : ArithParser} (h : Sane ok bad assign) :
    SaneTail ok bad (ternaryTail assign) := by
  constructor
  · intro cond
    unfold ternaryTail
    split
    · next rest hrest =>
      rw [hrest]
      apply (h.suffix _ _).trans
      apply (eat_suffix _ _).trans
      exact (h.suffix _ _).trans (List.suffix_cons _ _)
    · exact List.suffix_refl _
  · intro cond hok hbad
    unfold ternaryTail
    split
    · next rest hrest =>
      rw [hrest] at hok
      have hok' : ∀ t ∈ rest, ok t := fun t ht => hok t (.tail _ ht)
      apply h.keeps
      · exact ok_of_suffix ((eat_suffix _ _).trans (h.suffix _ _)) hok'
      · exact h.keeps _ _ hok' hbad
    · exact hbad

/-- `parse_exponentiation` after the base. -/
def powTail (exponentiation : ArithParser) (base : Result ArithToken ArithState Int64) :
    Result ArithToken ArithState Int64 :=
  match base.2.1 with
  | .starStar :: rest =>
    let exp := exponentiation rest base.2.2
    (wrappingPow base.1 exp.1, exp.2)
  | _ => base

omit hkept in
theorem parseExponentiation_succ (room : Nat) :
    parseExponentiation (room + 1) =
      fun ts st => powTail (parseExponentiation room) (parseUnary room ts st) := by
  rw [parseExponentiation]
  rfl

omit hkept in
theorem powTail_sane {exponentiation : ArithParser} (h : Sane ok bad exponentiation) :
    SaneTail ok bad (powTail exponentiation) := by
  constructor
  · intro base
    unfold powTail
    split
    · next rest hrest =>
      rw [hrest]
      exact (h.suffix _ _).trans (List.suffix_cons _ _)
    · exact List.suffix_refl _
  · intro base hok hbad
    unfold powTail
    split
    · next rest hrest =>
      rw [hrest] at hok
      exact h.keeps _ _ (fun t ht => hok t (.tail _ ht)) hbad
    · exact hbad

theorem parsePreIncdec_sane (op : StepOp) (delta : Int64) {ts : List ArithToken}
    {st : ArithState} :
    (parsePreIncdec delta ts st).2.1 <:+ ts ∧
      (ok op.token → bad st → bad (parsePreIncdec delta ts st).2.2) := by
  have hwrite : ok op.token → ∀ name value {st}, bad st → bad (varSet name value st) := by
    intro hop name value st
    apply hkept.write op.token _ hop
    cases op <;> simp [StepOp.token]
  unfold parsePreIncdec
  split
  · exact ⟨List.suffix_cons _ _, fun hop h => hwrite hop _ _ (hkept.read _ _ h)⟩
  · exact ⟨List.suffix_refl _, fun _ h => h⟩

theorem parsePrimary_sane {assign : ArithParser} (h : Sane ok bad assign) :
    Sane ok bad (parsePrimary assign) := by
  have hexpr := parseExpr_sane h
  constructor
  · intro ts st
    rcases parsePrimary_cases assign st ts with
      ⟨v, st', heq, -⟩ | ⟨name, op, rest, rfl⟩ | ⟨rest, rfl⟩
    · rw [heq]
      exact List.tail_suffix ts
    · rw [parsePrimary_post]
      exact (List.suffix_cons _ _).trans (List.suffix_cons _ _)
    · rw [parsePrimary_paren]
      apply (eat_suffix _ _).trans
      exact (hexpr.suffix _ _).trans (List.suffix_cons _ _)
  · intro ts st hok hbad
    rcases parsePrimary_cases assign st ts with
      ⟨v, st', heq, rfl | ⟨name, rfl⟩⟩ | ⟨name, op, rest, rfl⟩ | ⟨rest, rfl⟩
    · rw [heq]
      exact hbad
    · rw [heq]
      exact hkept.read name st hbad
    · rw [parsePrimary_post]
      apply hkept.write op.token _ (hok _ (by simp)) _ _ _ (hkept.read name st hbad)
      cases op <;> simp [StepOp.token]
    · rw [parsePrimary_paren]
      exact hexpr.keeps _ _ (fun t ht => hok t (.tail _ ht)) hbad

theorem parseUnary_sane {room : Nat} (hassign : Sane ok bad (parseAssign room))
    (hunary : Sane ok bad (parseUnary room)) : Sane ok bad (parseUnary (room + 1)) := by
  have hprimary := parsePrimary_sane hkept hassign
  constructor
  · intro ts st
    simp only [parseUnary]
    split
    · exact (hunary.suffix _ _).trans (List.suffix_cons _ _)
    · exact (hunary.suffix _ _).trans (List.suffix_cons _ _)
    · exact (hunary.suffix _ _).trans (List.suffix_cons _ _)
    · exact (hunary.suffix _ _).trans (List.suffix_cons _ _)
    · exact (parsePreIncdec_sane hkept .up 1).1.trans (List.suffix_cons _ _)
    · exact (parsePreIncdec_sane hkept .down (-1)).1.trans (List.suffix_cons _ _)
    · exact hprimary.suffix _ _
  · intro ts st hok hbad
    simp only [parseUnary]
    split
    · exact hunary.keeps _ _ (fun t ht => hok t (.tail _ ht)) hbad
    · exact hunary.keeps _ _ (fun t ht => hok t (.tail _ ht)) hbad
    · exact hunary.keeps _ _ (fun t ht => hok t (.tail _ ht)) hbad
    · exact hunary.keeps _ _ (fun t ht => hok t (.tail _ ht)) hbad
    · exact (parsePreIncdec_sane hkept .up 1).2 (hok _ (.head _)) hbad
    · exact (parsePreIncdec_sane hkept .down (-1)).2 (hok _ (.head _)) hbad
    · exact hprimary.keeps _ _ hok hbad

theorem parseAssign_sane {room : Nat} (hassign : Sane ok bad (parseAssign room))
    (hexponentiation : Sane ok bad (parseExponentiation room)) :
    Sane ok bad (parseAssign (room + 1)) := by
  have hternary : Sane ok bad (parseTernary (parseAssign room) (parseExponentiation room)) := by
    rw [parseTernary_eq]
    exact (ternaryTail_sane hassign).sane (tower_sane hkept hexponentiation 10)
  constructor
  · intro ts st
    simp only [parseAssign]
    split
    · split
      · apply (hassign.suffix _ _).trans
        exact (List.suffix_cons _ _).trans (List.suffix_cons _ _)
      · exact hternary.suffix _ _
    · exact hternary.suffix _ _
  · intro ts st hok hbad
    simp only [parseAssign]
    split
    · next name op rest =>
      split
      · next apply happly =>
        apply hkept.write op (Or.inl _) (hok op (by simp))
        · apply hkept.assignRead
          apply hassign.keeps _ _ _ hbad
          intro t ht
          exact hok t (.tail _ (.tail _ ht))
        · rw [happly]
          rfl
      · exact hternary.keeps _ _ hok hbad
    · exact hternary.keeps _ _ hok hbad

/-- All parsers take tokens from the front and keep what their steps keep. -/
theorem parsers_sane (room : Nat) :
    Sane ok bad (parseAssign room) ∧ Sane ok bad (parseExponentiation room) ∧
      Sane ok bad (parseUnary room) := by
  induction room with
  | zero =>
    have h := limitReached_sane hkept
    exact ⟨h, h, h⟩
  | succ room ih =>
    rcases ih with ⟨hassign, hexponentiation, hunary⟩
    refine ⟨parseAssign_sane hkept hassign hexponentiation, ?_,
      parseUnary_sane hkept hassign hunary⟩
    rw [parseExponentiation_succ]
    exact (powTail_sane hexponentiation).sane hunary

end Lost

end Wasmsh.Arith

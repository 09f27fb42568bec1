import Wasmsh.Expansion

/-!
# Operands and the expansion depth

`${a:-${b:-...}}`: `expand_parameter` and `expand_operand_inner` of
`wasmsh-expand/src/lib.rs`, with the depth that they count.  `expand_word` and
`expand_words_argv` start at different depths, so the limit cuts off what they expand at
different places.

The checks of `expand_parameter` before its operators do not look at the depth.  They are
the `ParamRules`', as is the glob match of `#` and `%` and the value of an arithmetic
expression.  Each of them can panic, and then so does the expansion that they are part of.
-/

namespace Wasmsh.Operands

open Expand

variable {s : ShellState}

/-- What an expansion writes, and its text; `none` when it panics. -/
abbrev Effect := List Char → ShellState → Option (List StateOp × List Char)

/-- What one of the forms makes of a name: it is not of the form, or it writes a text, or
    it panics. -/
inductive Outcome where
  | skipped
  | handled (ops : List StateOp) (text : List Char)
  | panicked
  deriving DecidableEq, Repr

namespace Outcome

/-- A form that makes nothing but a text. -/
def ofText : Option (List Char) → Outcome
  | some text => .handled [] text
  | none => .skipped

/-- A form that makes a text or panics. -/
def ofResult : Option (List Char) → Outcome
  | some text => .handled [] text
  | none => .panicked

/-- The next form, when the name is not of the first one. -/
def orElse : Outcome → Outcome → Outcome
  | .skipped, next => next
  | out, _ => out

end Outcome

structure ParamRules where
  /-- `try_expand_array_subscript` to `try_expand_substring`. -/
  forms : List Char → ShellState → Outcome
  /-- `expand_param_strip_op`, its operand expanded. -/
  strip : (operator val pat : List Char) → Option (List Char)
  evalArithmetic : List Char → ShellState → Option (List StateOp × Int)

/-! ## 1. Operators -/

/-- The loop of `find_param_operator`. -/
def findParamOperatorFrom (name : List Char) (i : Nat) : List Char → Option Nat
  | [] => none
  | b :: r =>
    if i = 0 ∧ (b = '#' ∨ b = '!') then findParamOperatorFrom name (i + 1) r
    else if b = ':' ∧ ['-', '=', '+', '?'].any (fun c => r.head? == some c) then some i
    else if ['-', '=', '+', '?'].contains b ∧ 0 < i then
      if (name.take i).all isNameByte then some i else findParamOperatorFrom name (i + 1) r
    else if (b = '#' ∨ b = '%') ∧ 0 < i then some i
    else findParamOperatorFrom name (i + 1) r

/-- `find_param_operator`. -/
def findParamOperator (name : List Char) : Option Nat := findParamOperatorFrom name 0 name

/-- `param_op_len`. -/
def paramOpLen (name : List Char) (pos : Nat) : Nat :=
  if name[pos]? = some ':' ∨ (pos + 1 < name.length ∧ name[pos]? = name[pos + 1]?) then 2 else 1

/-- `param_has_value`. -/
def paramHasValue (val : Option String) (requireNonEmpty : Bool) : Bool :=
  match val with
  | some value => !requireNonEmpty || value ≠ ""
  | none => false

/-- A name that may be unset under `set -u`. -/
def isSpecialName (name : List Char) : Bool :=
  [['?'], ['#'], ['0'], ['@'], ['*'], ['-'], ['$'], ['!']].contains name ||
    (parseUnsigned 64 (String.ofList name)).isSome

section

variable (x : ParamRules) (operand : Effect)

/-- `expand_param_default_value`. -/
def expandParamDefaultValue (val : Option String) (text : List Char) (requireNonEmpty : Bool)
    (s : ShellState) : Option (List StateOp × List Char) :=
  if paramHasValue val requireNonEmpty then some ([], (val.getD "").toList) else operand text s

/-- `expand_param_assign_value`. -/
def expandParamAssignValue (var : List Char) (val : Option String) (text : List Char)
    (requireNonEmpty : Bool) (s : ShellState) : Option (List StateOp × List Char) :=
  if paramHasValue val requireNonEmpty then some ([], (val.getD "").toList)
  else (operand text s).map fun expanded =>
    (expanded.1 ++ [.setVar (String.ofList var) (String.ofList expanded.2)], expanded.2)

/-- `expand_param_error_value` and `set_fatal_shell_error`: what it pushes becomes the
    message. -/
def expandParamErrorValue (var : List Char) (val : Option String) (text : List Char)
    (requireNonEmpty : Bool) : List StateOp × List Char :=
  let message :=
    if paramHasValue val requireNonEmpty then (val.getD "").toList
    else if text = [] then var ++ ": parameter null or not set".toList
    else var ++ [':', ' '] ++ text
  if message = [] then ([], [])
  else ([.setEntry "_SHELL_ERROR" (.ofScalar (String.ofList ('\x01' :: message)))], [])

/-- `expand_param_alt_value`. -/
def expandParamAltValue (val : Option String) (text : List Char) (requireNonEmpty : Bool) :
    List StateOp × List Char :=
  ([], if paramHasValue val requireNonEmpty then text else [])

/-- `expand_param_op_depth` and `expand_param_default_op`. -/
def expandParamOp (var operator text : List Char) (s : ShellState) :
    Option (List StateOp × List Char) :=
  let val := s.getVar (String.ofList var)
  match operator with
  | [':', '-'] => expandParamDefaultValue operand val text true s
  | ['-'] => expandParamDefaultValue operand val text false s
  | [':', '='] => expandParamAssignValue operand var val text true s
  | ['='] => expandParamAssignValue operand var val text false s
  | [':', '?'] => some (expandParamErrorValue var val text true)
  | [':', '+'] => some (expandParamAltValue val text true)
  | ['+'] => some (expandParamAltValue val text false)
  | operator =>
    if [['#'], ['#', '#'], ['%'], ['%', '%']].contains operator then
      match val with
      | some v => (operand text s).bind fun pat =>
        (x.strip operator v.toList pat.2).map fun stripped => (pat.1, stripped)
      | none => some ([], [])
    else some ([], (val.getD "").toList)

/-- `expand_parameter` behind the forms before the operators. -/
def expandOperator : Effect := fun name s =>
  match findParamOperator name with
  | some pos =>
    let len := paramOpLen name pos
    expandParamOp x operand (name.take pos) ((name.drop pos).take len) (name.drop (pos + len)) s
  | none =>
    match s.getVar (String.ofList name) with
    | some val => some ([], val.toList)
    | none =>
      if s.getVar "SHOPT_u" = some "1" ∧ !isSpecialName name then
        some ([.setEntry "_NOUNSET_ERROR" (.ofScalar (String.ofList name))], [])
      else some ([], [])

/-- `expand_parameter`; `operand` expands its operand. -/
def expandParameter : Effect := fun name s =>
  match x.forms name s with
  | .handled ops text => some (ops, text)
  | .panicked => none
  | .skipped => expandOperator x operand name s

end

/-! ## 2. Operands -/

/-- `scan_braced_param`: the content of a `${` and the text after its `}`, at a nesting of
    braces. -/
def scanBracedParam : Nat → List Char → List Char × List Char
  | _, [] => ([], [])
  | depth, c :: r =>
    if c = '}' ∧ depth ≤ 1 then ([], r)
    else
      let e := scanBracedParam
        (if c = '{' then depth + 1 else if c = '}' then depth - 1 else depth) r
      (c :: e.1, e.2)

/-- `scan_arith_expansion`, the text after `((`: the expression and the text after `))`. -/
def scanArithExpansion : Nat → List Char → Option (List Char × List Char)
  | _, [] => none
  | depth, c :: r =>
    if c = ')' ∧ depth ≤ 1 then
      if r.head? = some ')' then some ([], r.drop 1) else none
    else
      (scanArithExpansion
        (if c = '(' then depth + 1 else if c = ')' then depth - 1 else depth) r).map
          fun e => (c :: e.1, e.2)

/-- What one turn of a loop writes, its text and what is left to read. -/
structure Turn where
  ops : List StateOp
  text : List Char
  rest : List Char

section

variable (x : ParamRules) (braced : Effect)

/-- `expand_dollar_in_operand`, the text after the `$`; `braced` expands the inside of a
    `${`. -/
def expandDollarInOperand (text : List Char) (s : ShellState) : Option Turn :=
  match text with
  | '{' :: r =>
    let inner := scanBracedParam 1 r
    (braced inner.1 s).map fun value => ⟨value.1, value.2, inner.2⟩
  | '(' :: '(' :: r =>
    match scanArithExpansion 1 r with
    | some e => (x.evalArithmetic e.1 s).map fun value =>
      ⟨value.1, (toString value.2).toList, e.2⟩
    | none => some ⟨[], ['$'], text⟩
  | c :: r =>
    if isNameStart c then
      let name := (c :: r).takeWhile isNameByte
      some ⟨[], ((s.getVar (String.ofList name)).getD "").toList, (c :: r).dropWhile isNameByte⟩
    else some ⟨[], ['$'], text⟩
  | [] => some ⟨[], ['$'], []⟩

/-- One turn of `expand_operand_inner`: a byte that is no `$` is pushed as a character. -/
def operandTurn (c : Char) (text : List Char) (s : ShellState) : Option Turn :=
  if c = '$' then expandDollarInOperand x braced text s
  else some ⟨[], Utf8.encodeChar c, text⟩

/-- The loop of `expand_operand_inner`; the first argument bounds the number of turns. -/
def operandLoop : Nat → Effect
  | 0, _, _ => some ([], [])
  | _ + 1, [], _ => some ([], [])
  | n + 1, c :: text, s =>
    (operandTurn x braced c text s).bind fun turn =>
      (operandLoop n turn.rest (s.after turn.ops)).map fun more =>
        (turn.ops ++ more.1, turn.text ++ more.2)

end

theorem scanBracedParam_length (depth : Nat) (text : List Char) :
    (scanBracedParam depth text).2.length ≤ text.length := by
  induction text generalizing depth with
  | nil => exact Nat.le_refl _
  | cons c r ih =>
    rw [scanBracedParam]
    split
    · exact Nat.le_succ _
    · exact (ih _).trans (Nat.le_succ _)

theorem scanArithExpansion_length {depth : Nat} {text : List Char} {e : List Char × List Char}
    (h : scanArithExpansion depth text = some e) : e.2.length ≤ text.length := by
  induction text generalizing depth e with
  | nil => cases h
  | cons c r ih =>
    rw [scanArithExpansion] at h
    split at h
    · split at h
      · cases h
        simp only [List.length_drop, List.length_cons]
        omega
      · cases h
    · rcases Option.map_eq_some_iff.mp h with ⟨e', he', rfl⟩
      exact (ih he').trans (Nat.le_succ _)

/-- What follows a `$` is not read twice. -/
theorem expandDollarInOperand_length {x : ParamRules} {braced : Effect} {text : List Char}
    {turn : Turn} (h : expandDollarInOperand x braced text s = some turn) :
    turn.rest.length ≤ text.length := by
  unfold expandDollarInOperand at h
  split at h
  · rcases Option.map_eq_some_iff.mp h with ⟨value, -, rfl⟩
    exact (scanBracedParam_length _ _).trans (Nat.le_succ _)
  · split at h
    · next e he =>
      rcases Option.map_eq_some_iff.mp h with ⟨value, -, rfl⟩
      refine (scanArithExpansion_length he).trans ?_
      simp only [List.length_cons]
      omega
    · cases h
      exact Nat.le_refl _
  · split at h
    · cases h
      exact (List.dropWhile_sublist _).length_le
    · cases h
      exact Nat.le_refl _
  · cases h
    exact Nat.le_refl _

/-- The loop needs a turn for each character at most. -/
theorem operandLoop_enough {x : ParamRules} {braced : Effect} {n : Nat} {text : List Char}
    (hn : text.length ≤ n) :
    operandLoop x braced (n + 1) text s = operandLoop x braced n text s := by
  induction n generalizing text s with
  | zero =>
    rw [List.eq_nil_of_length_eq_zero (Nat.le_zero.mp hn)]
    rfl
  | succ n ih =>
    cases text with
    | nil => rfl
    | cons c text =>
      rw [operandLoop, operandLoop]
      cases hturn : operandTurn x braced c text s with
      | none => rfl
      | some turn =>
        have hrest : turn.rest.length ≤ n := by
          refine Nat.le_trans ?_ (Nat.le_of_succ_le_succ hn)
          unfold operandTurn at hturn
          split at hturn
          · exact expandDollarInOperand_length hturn
          · cases hturn
            exact Nat.le_refl _
        rw [Option.bind_some, Option.bind_some, ih hrest]

mutual

/-- `expand_operand_inner`; the first argument is how far the depth is from the limit, and
    nothing is expanded beyond it. -/
def expandOperandInner (x : ParamRules) : Nat → Effect
  | 0, text, _ => some ([], text)
  | room + 1, text, s =>
    if text.contains '$' then operandLoop x (expandBraced x room) text.length text s
    else some ([], text)

/-- `expand_part_depth` on a parameter inside an operand: beyond the limit its name is the
    text. -/
def expandBraced (x : ParamRules) : Nat → Effect
  | 0, name, _ => some ([], name)
  | room + 1, name, s => expandParameter x (expandOperandInner x room) name s

end

/-- `expand_parameter` at a depth; its operand is one deeper. -/
def expandParameterAt (x : ParamRules) (depth : Nat) : Effect :=
  expandParameter x (expandOperandInner x (maxExpandDepth - depth))

/-! ## 3. Expansions that stay above the limit -/

section

variable (x : ParamRules)

/-- The operand that `expand_param_op_depth` expands, if it does. -/
def operandOfOp (var operator text : List Char) (s : ShellState) : Option (List Char) :=
  let val := s.getVar (String.ofList var)
  match operator with
  | [':', '-'] => if paramHasValue val true then none else some text
  | ['-'] => if paramHasValue val false then none else some text
  | [':', '='] => if paramHasValue val true then none else some text
  | ['='] => if paramHasValue val false then none else some text
  | operator =>
    if [['#'], ['#', '#'], ['%'], ['%', '%']].contains operator ∧ val.isSome then some text
    else none

/-- The operand that `expand_parameter` expands. -/
def expandedOperand (name : List Char) (s : ShellState) : Option (List Char) :=
  if x.forms name s ≠ .skipped then none
  else
    match findParamOperator name with
    | none => none
    | some pos =>
      let len := paramOpLen name pos
      operandOfOp (name.take pos) ((name.drop pos).take len) (name.drop (pos + len)) s

/-- The `${` that one turn of the loop expands. -/
def bracedOfTurn (c : Char) (text : List Char) : Option (List Char) :=
  match c, text with
  | '$', '{' :: r => some (scanBracedParam 1 r).1
  | _, _ => none

/-- The `${` of an operand with the states in which they are expanded, while the loop runs. -/
def bracedOfLoop (braced : Effect) : Nat → List Char → ShellState → List (List Char × ShellState)
  | 0, _, _ => []
  | _ + 1, [], _ => []
  | n + 1, c :: text, s =>
    ((bracedOfTurn c text).map (·, s)).toList ++
      match operandTurn x braced c text s with
      | some turn => bracedOfLoop braced n turn.rest (s.after turn.ops)
      | none => []

mutual

/-- The expansion of an operand does not meet the limit. -/
def operandFits : Nat → List Char → ShellState → Bool
  | 0, text, _ => !text.contains '$'
  | room + 1, text, s => !text.contains '$' ||
      (bracedOfLoop x (expandBraced x room) text.length text s).all fun c => bracedFits room c.1 c.2

def bracedFits : Nat → List Char → ShellState → Bool
  | 0, _, _ => false
  | room + 1, name, s => (expandedOperand x name s).all fun text => operandFits room text s

end

/-- The expansion of a parameter at a depth does not meet the limit. -/
def parameterFits (depth : Nat) (name : List Char) (s : ShellState) : Bool :=
  (expandedOperand x name s).all fun text => operandFits x (maxExpandDepth - depth) text s

variable {x}

theorem operandTurn_congr {braced braced' : Effect} {c : Char} {text : List Char}
    (h : ∀ inner ∈ bracedOfTurn c text, braced' inner s = braced inner s) :
    operandTurn x braced' c text s = operandTurn x braced c text s := by
  unfold operandTurn
  by_cases hc : c = '$'
  · subst hc
    rw [if_pos rfl, if_pos rfl]
    unfold expandDollarInOperand
    split
    · next r =>
      have hinner : braced' (scanBracedParam 1 r).1 s = braced (scanBracedParam 1 r).1 s :=
        h _ rfl
      dsimp only
      rw [hinner]
    · rfl
    · rfl
    · rfl
  · rw [if_neg hc, if_neg hc]

/-- The loop depends only on the `${` that it expands. -/
theorem operandLoop_congr {braced braced' : Effect} (n : Nat) (text : List Char) (s : ShellState)
    (h : ∀ c ∈ bracedOfLoop x braced n text s, braced' c.1 c.2 = braced c.1 c.2) :
    operandLoop x braced' n text s = operandLoop x braced n text s := by
  induction n generalizing text s with
  | zero => rfl
  | succ n ih =>
    cases text with
    | nil => rfl
    | cons c text =>
      rw [bracedOfLoop] at h
      have hturn : operandTurn x braced' c text s = operandTurn x braced c text s := by
        refine operandTurn_congr fun inner hinner => ?_
        refine h (inner, s) (List.mem_append_left _ ?_)
        rw [Option.mem_toList, hinner]
        rfl
      rw [operandLoop, operandLoop, hturn]
      cases hdone : operandTurn x braced c text s with
      | none => rfl
      | some turn =>
        rw [hdone] at h
        rw [Option.bind_some, Option.bind_some,
          ih _ _ fun c' hc' => h c' (List.mem_append_right _ hc')]

theorem expandParamOp_congr {operand operand' : Effect} {var operator text : List Char}
    (h : ∀ t ∈ operandOfOp var operator text s, operand' t s = operand t s) :
    expandParamOp x operand' var operator text s = expandParamOp x operand var operator text s := by
  have hdefault : ∀ nonEmpty,
      (∀ t ∈ (if paramHasValue (s.getVar (String.ofList var)) nonEmpty then none else some text),
        operand' t s = operand t s) →
      paramHasValue (s.getVar (String.ofList var)) nonEmpty = true ∨
        operand' text s = operand text s := by
    intro nonEmpty h
    by_cases hval : paramHasValue (s.getVar (String.ofList var)) nonEmpty = true
    · exact .inl hval
    · rw [if_neg hval] at h
      exact .inr (h text rfl)
  unfold expandParamOp expandParamDefaultValue expandParamAssignValue
  unfold operandOfOp at h
  dsimp only
  split
  · rcases hdefault true h with hval | heq
    · rw [if_pos hval, if_pos hval]
    · rw [heq]
  · rcases hdefault false h with hval | heq
    · rw [if_pos hval, if_pos hval]
    · rw [heq]
  · rcases hdefault true h with hval | heq
    · rw [if_pos hval, if_pos hval]
    · rw [heq]
  · rcases hdefault false h with hval | heq
    · rw [if_pos hval, if_pos hval]
    · rw [heq]
  · rfl
  · rfl
  · rfl
  · split
    · next hstrip =>
      cases hval : s.getVar (String.ofList var) with
      | none => rfl
      | some v =>
        have heq : operand' text s = operand text s := by
          refine h text ?_
          simp only [hval, hstrip]
          rfl
        dsimp only
        rw [heq]
    · rfl

/-- A parameter depends only on the operand that it expands. -/
theorem expandParameter_congr {operand operand' : Effect} {name : List Char}
    (h : ∀ text ∈ expandedOperand x name s, operand' text s = operand text s) :
    expandParameter x operand' name s = expandParameter x operand name s := by
  unfold expandParameter
  unfold expandedOperand at h
  cases hforms : x.forms name s with
  | handled ops text => rfl
  | panicked => rfl
  | skipped =>
    rw [if_neg (not_not_intro hforms)] at h
    unfold expandOperator
    cases hop : findParamOperator name with
    | none => rfl
    | some pos =>
      rw [hop] at h
      exact expandParamOp_congr h

/-- Above the limit more room changes nothing. -/
theorem more_room (room : Nat) :
    (∀ text s, operandFits x room text s = true →
      ∀ k, expandOperandInner x (room + k) text s = expandOperandInner x room text s) ∧
    (∀ name s, bracedFits x room name s = true →
      ∀ k, expandBraced x (room + k) name s = expandBraced x room name s) := by
  induction room with
  | zero =>
    constructor
    · intro text s hfits k
      cases k with
      | zero => rfl
      | succ k =>
        rw [operandFits, Bool.not_eq_true'] at hfits
        rw [Nat.zero_add, expandOperandInner, expandOperandInner, hfits]
        rfl
    · intro name s hfits
      cases hfits
  | succ room ih =>
    constructor
    · intro text s hfits k
      rw [Nat.add_right_comm, expandOperandInner, expandOperandInner]
      by_cases hdollar : text.contains '$' = true
      · rw [if_pos hdollar, if_pos hdollar]
        rw [operandFits, hdollar, Bool.not_true, Bool.false_or, List.all_eq_true] at hfits
        exact operandLoop_congr _ _ _ fun c hc => ih.2 c.1 c.2 (hfits c hc) k
      · rw [if_neg hdollar, if_neg hdollar]
    · intro name s hfits k
      rw [Nat.add_right_comm, expandBraced, expandBraced]
      rw [bracedFits] at hfits
      refine expandParameter_congr fun text htext => ih.1 text s ?_ k
      rw [Option.all_eq_true] at hfits
      exact hfits text htext

/-- A parameter that stays above the limit expands in the same way at a smaller depth. -/
theorem expandParameterAt_eq {depth depth' : Nat} {name : List Char}
    (hle : depth' ≤ depth) (h : parameterFits x depth name s = true) :
    expandParameterAt x depth' name s = expandParameterAt x depth name s := by
  rw [parameterFits, Option.all_eq_true] at h
  refine expandParameter_congr fun text htext => ?_
  have hroom : maxExpandDepth - depth' =
      maxExpandDepth - depth + (maxExpandDepth - depth' - (maxExpandDepth - depth)) := by
    omega
  rw [hroom]
  exact (more_room _).1 text s (h text htext) _

/-- The expander of some rules.  An expansion that panics ends the shell; here it stands for
    an empty text. -/
def expander (x : ParamRules) : Expander where
  expandParameter depth name s := (expandParameterAt x depth name s).getD ([], [])
  evalArithmetic e s := (x.evalArithmetic e s).getD ([], 0)
  fits depth := parameterFits x depth
  expandParameter_of_fits hle h := by rw [expandParameterAt_eq hle h]

end

/-! ## 4. The two paths -/

section

variable (x : Expander)

mutual

/-- No part is dropped in `expand_part_masked`, and no parameter of it meets the limit. -/
def partFits (depth : Nat) : WordPart → ShellState → Bool
  | .doubleQuoted ps, s => decide (depth ≤ maxExpandDepth) && partsFit (depth + 1) ps s
  | .parameter name, s => decide (depth ≤ maxExpandDepth) && x.fits (depth + 1) name s
  | .literal _, _ => decide (depth ≤ maxExpandDepth)
  | .singleQuoted _, _ => decide (depth ≤ maxExpandDepth)
  | .arithmetic _, _ => decide (depth ≤ maxExpandDepth)
  | _, _ => true

def partsFit (depth : Nat) : List WordPart → ShellState → Bool
  | [], _ => true
  | p :: ps, s => partFits depth p s && partsFit depth ps (s.after (expandPart x p s).1)

end

variable {x}

/-- The same writes, and the text without the flags. -/
def SameExpansion (masked : List StateOp × Masked) (plain : List StateOp × List Char) : Prop :=
  masked.1 = plain.1 ∧ masked.2.text = plain.2

mutual

theorem sameExpansion_part (quoted : Bool) (depth : Nat) : ∀ (p : WordPart) (s : ShellState),
    partFits x depth p s = true →
      SameExpansion (expandPartMasked x quoted depth p s) (expandPart x p s)
  | .literal t, s, h => by
    rw [partFits, decide_eq_true_eq] at h
    rw [expandPartMasked, expandPart, if_neg (Nat.not_lt.mpr h)]
    exact ⟨rfl, Masked.text_ofText quoted t⟩
  | .singleQuoted t, s, h => by
    rw [partFits, decide_eq_true_eq] at h
    rw [expandPartMasked, expandPart, if_neg (Nat.not_lt.mpr h)]
    exact ⟨rfl, Masked.text_ofText true t⟩
  | .doubleQuoted ps, s, h => by
    rw [partFits, Bool.and_eq_true, decide_eq_true_eq] at h
    rw [expandPartMasked, expandPart, if_neg (Nat.not_lt.mpr h.1)]
    exact sameExpansion_parts true (depth + 1) ps s h.2
  | .parameter name, s, h => by
    rw [partFits, Bool.and_eq_true, decide_eq_true_eq] at h
    rw [expandPartMasked, expandPart, if_neg (Nat.not_lt.mpr h.1),
      x.expandParameter_of_fits (Nat.zero_le _) h.2]
    exact ⟨rfl, Masked.text_ofText quoted _⟩
  | .arithmetic e, s, h => by
    rw [partFits, decide_eq_true_eq] at h
    rw [expandPartMasked, expandPart, if_neg (Nat.not_lt.mpr h)]
    exact ⟨rfl, Masked.text_ofText quoted _⟩
  | .commandSubstitution _, s, h => ⟨rfl, rfl⟩
  | .processSubstIn _, s, h => ⟨rfl, rfl⟩
  | .processSubstOut _, s, h => ⟨rfl, rfl⟩

theorem sameExpansion_parts (quoted : Bool) (depth : Nat) :
    ∀ (ps : List WordPart) (s : ShellState), partsFit x depth ps s = true →
      SameExpansion (expandPartsMasked x quoted depth ps s) (expandParts x ps s)
  | [], s, h => ⟨rfl, rfl⟩
  | p :: ps, s, h => by
    rw [partsFit, Bool.and_eq_true] at h
    rcases sameExpansion_part quoted depth p s h.1 with ⟨hops, htext⟩
    rcases sameExpansion_parts quoted depth ps _ h.2 with ⟨hops', htext'⟩
    rw [expandPartsMasked, expandParts, hops]
    constructor
    · dsimp only
      rw [hops']
    · dsimp only
      rw [Masked.text_append, htext, htext']

end

end

/-- **The two paths of a word of one field.**  As long as the depth stays below its limit on
    the path with the flags, it returns one field with the text of the other path, and both
    write the same. -/
theorem single_field_paths_agree (x : ParamRules) (w : Word) (s : ShellState)
    (hone : partsHaveMultiField w.parts = false)
    (hfits : partsFit (expander x) 0 w.parts s = true) :
    ∃ m, expandWordsArgv (expander x) [w] s = ((expandWord (expander x) w s).1, [m]) ∧
      m.text = (expandWord (expander x) w s).2 := by
  rcases sameExpansion_parts false 0 w.parts s hfits with ⟨hops, htext⟩
  refine ⟨(expandWordMasked (expander x) w s).2, ?_, ?_⟩
  · simp only [expandWordsArgv, expandWordArgv, hone, expandWordMasked, expandWord, hops]
    rw [List.append_nil]
    rfl
  · simp only [expandWordMasked, expandWord, hops, text_expandTilde, htext]

/-- Rules under which every name is for the operators. -/
def ParamRules.plain : ParamRules :=
  ⟨fun _ _ => .skipped, fun _ val _ => some val, fun _ _ => some ([], 0)⟩

/-- `"${a:-${b:=x}}"` with neither variable set. -/
theorem single_field_paths_agree_nested :
    let w : Word := ⟨[.doubleQuoted [.parameter "a:-${b:=x}".toList]]⟩
    ∃ m, expandWordsArgv (expander .plain) [w] .new =
        ((expandWord (expander .plain) w .new).1, [m]) ∧
      m.text = (expandWord (expander .plain) w .new).2 :=
  single_field_paths_agree .plain _ .new (by decide +kernel) (by decide +kernel)

/-- `a:=X` behind as many `${a:-` as given. -/
def nestedDefaults : Nat → List Char
  | 0 => ['a', ':', '=', 'X']
  | n + 1 => ['a', ':', '-', '$', '{'] ++ nestedDefaults n ++ ['}']

/-- At twenty-five levels the path with the flags gives the innermost parameter back as it is
    written, and assigns nothing. -/
theorem single_field_paths_disagree :
    let w : Word := ⟨[.parameter (nestedDefaults 25)]⟩
    expandWord (expander .plain) w .new = ([.setVar "a" "X"], ['X']) ∧
      expandWordsArgv (expander .plain) [w] .new = ([], [.ofText false ['a', ':', '=', 'X']]) := by
  decide +kernel

end Wasmsh.Operands

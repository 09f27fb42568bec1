import Wasmsh.Substrings

/-!
# Default, assign, error and alternative operators

`${v-w}`, `${v=w}`, `${v?w}` and `${v+w}`, with a colon or without one: how
`find_param_operator` and `param_op_len` read them, which of them another form takes before,
and what `expand_param_op_depth` does with them.
-/

namespace Wasmsh.Params

open Expand Operands

/-! ## 1. Reading an operator -/

/-- The operators of this file. -/
def operatorChars : List Char := ['-', '=', '+', '?']

/-- An operator with its colon. -/
def operatorText (colon : Bool) (c : Char) : List Char := if colon then [':', c] else [c]

section

variable {v w : List Char} {c : Char} {colon : Bool}

theorem isNameByte_false_of_operator (hc : c ∈ operatorChars) : isNameByte c = false :=
  (List.all_iff_forall_prop.mp (by decide) : ∀ c ∈ operatorChars, isNameByte c = false) c hc

/-- The loop goes over the name and stops at the operator. -/
theorem findParamOperatorFrom_name {name front : List Char}
    (hname : name = front ++ (v ++ (operatorText colon c ++ w)))
    (hv : ∀ b ∈ v, isNameByte b = true) (hc : c ∈ operatorChars)
    (hfront : ∀ b ∈ front, isNameByte b = true) (hne : front ++ v ≠ []) :
    findParamOperatorFrom name front.length (v ++ (operatorText colon c ++ w)) =
      some (front ++ v).length := by
  induction v generalizing front with
  | nil =>
    rw [List.append_nil] at hne
    have hpos : 0 < front.length := List.length_pos_iff.mpr hne
    have hops : ['-', '=', '+', '?'].contains c = true := List.contains_iff_mem.mpr hc
    have hcolon : c ≠ ':' := by
      rintro rfl
      revert hc
      decide
    have htake : name.take front.length = front := by rw [hname, List.take_left]
    cases colon with
    | true =>
      have hany : (['-', '=', '+', '?'].any fun d => (c :: w).head? == some d) = true :=
        List.any_eq_true.mpr ⟨c, hc, beq_self_eq_true _⟩
      rw [List.nil_append, operatorText, if_pos rfl, List.cons_append, List.singleton_append,
        findParamOperatorFrom, if_neg (fun h => by omega), if_pos ⟨rfl, hany⟩, List.append_nil]
    | false =>
      rw [List.nil_append, operatorText, if_neg Bool.false_ne_true, List.singleton_append,
        findParamOperatorFrom, if_neg (fun h => by omega), if_neg (fun h => hcolon h.1),
        if_pos ⟨hops, hpos⟩, htake, if_pos (List.all_eq_true.mpr hfront), List.append_nil]
  | cons b v ih =>
    have hb : isNameByte b = true := hv b List.mem_cons_self
    have hnot : ∀ d, isNameByte d = false → b ≠ d := by
      rintro _ hd rfl
      rw [hb] at hd
      cases hd
    have hops : ¬(['-', '=', '+', '?'].contains b = true ∧ 0 < front.length) := fun h =>
      hnot b (isNameByte_false_of_operator (List.contains_iff_mem.mp h.1)) rfl
    have hsnoc := @ih (front ++ [b]) (by rw [hname]; simp) (fun d hd => hv d (.tail _ hd))
      (fun d hd => (List.mem_append.mp hd).elim (hfront d)
        fun h => by rw [List.mem_singleton.mp h, hb]) (by simp)
    rw [List.length_append, List.length_singleton] at hsnoc
    rw [List.cons_append, findParamOperatorFrom,
      if_neg (fun h => h.2.elim (hnot '#' (by decide)) (hnot '!' (by decide))),
      if_neg (fun h => hnot ':' (by decide) h.1), if_neg hops,
      if_neg (fun h => h.1.elim (hnot '#' (by decide)) (hnot '%' (by decide))), hsnoc]
    simp

theorem findParamOperator_name (hv : isValidIdentifier v = true) (hc : c ∈ operatorChars) :
    findParamOperator (v ++ (operatorText colon c ++ w)) = some v.length :=
  @findParamOperatorFrom_name v w c colon _ [] rfl (isNameByte_of_mem hv) hc
    (fun _ hb => nomatch hb) (ne_nil_of_identifier hv)

/-- The operator takes in a second character when the operand starts with the same. -/
def doubled (w : List Char) (c : Char) (colon : Bool) : Bool := !colon && w.head? == some c

theorem paramOpLen_name (hc : c ∈ operatorChars) :
    paramOpLen (v ++ (operatorText colon c ++ w)) v.length =
      (operatorText colon c).length + (if doubled w c colon then 1 else 0) := by
  have hcolon : c ≠ ':' := by
    rintro rfl
    revert hc
    decide
  have hat : ∀ i, (v ++ (operatorText colon c ++ w))[v.length + i]? =
      (operatorText colon c ++ w)[i]? := fun i => by
    rw [List.getElem?_append_right (Nat.le_add_right _ _), Nat.add_sub_cancel_left]
  have hzero := hat 0
  rw [Nat.add_zero] at hzero
  rw [paramOpLen, hzero, hat 1]
  cases colon with
  | true => rfl
  | false =>
    cases w with
    | nil => simp [operatorText, doubled, hcolon]
    | cons d w =>
      by_cases hd : d = c
      · subst hd
        simp [operatorText, doubled]
      · simp [operatorText, doubled, hcolon, Ne.symm hd, hd]

variable (x : Rules) (depth : Nat) (s : ShellState)

/-- The forms before the operators: a subscript at the end of the text, and a substring where
    the operator has no colon. -/
theorem forms_operator (hv : isValidIdentifier v = true) (hc : c ∈ operatorChars) :
    forms x (v ++ (operatorText colon c ++ w)) s =
      (Outcome.ofText (tryExpandArrayAllValues (v ++ (operatorText colon c ++ w)) s)).orElse
        (if colon then .skipped
          else tryExpandSubstring (v ++ (operatorText colon c ++ w)) s) := by
  have hchars := (List.all_iff_forall_prop.mp (by decide) :
    ∀ c ∈ operatorChars, c ∉ ['[', '^', ',', '@'] ∧ c ≠ '/') c hc
  cases colon with
  | true =>
    have hsubstring : tryExpandSubstring (v ++ ':' :: (c :: w)) s = .skipped := by
      have hname : ∀ b, isNameByte b = true → (b != ':') = true := fun b => bne_of_name (by decide)
      have hany : (['-', '=', '+', '?'].any fun d => (c :: w).head? == some d) = true :=
        List.any_eq_true.mpr ⟨c, hc, beq_self_eq_true _⟩
      unfold tryExpandSubstring
      dsimp only
      rw [dropWhile_identifier hv hname (by decide), if_neg (by simp), List.drop_one, List.tail_cons,
        if_pos hany]
    rw [show operatorText true c ++ w = ':' :: (c :: w) from rfl,
      forms_name x hv (by decide) (by decide), tryExpandSubstitution_name hv (by decide) (by decide),
      hsubstring]
    rfl
  | false =>
    rw [show operatorText false c ++ w = c :: w from rfl,
      forms_name x hv (isNameByte_false_of_operator hc) hchars.1,
      tryExpandSubstitution_name hv (isNameByte_false_of_operator hc) hchars.2]
    rfl

/-- What `expand_parameter` makes of an operator that no other form has taken. -/
theorem expandParameter_operator (hv : isValidIdentifier v = true) (hc : c ∈ operatorChars)
    (hforms : forms x (v ++ (operatorText colon c ++ w)) s = .skipped) :
    expandParameter x depth (v ++ (operatorText colon c ++ w)) s =
      expandParamOp (paramRules x)
        (expandOperandInner (paramRules x) (maxExpandDepth - depth)) v
        (operatorText colon c ++ if doubled w c colon then [c] else [])
        (if doubled w c colon then w.drop 1 else w) s := by
  have hfind := @findParamOperator_name v w c colon hv hc
  have hlen := @paramOpLen_name v w c colon hc
  have hsplit : operatorText colon c ++ w =
      (operatorText colon c ++ if doubled w c colon then [c] else []) ++
        if doubled w c colon then w.drop 1 else w := by
    by_cases hd : doubled w c colon = true
    · rw [if_pos hd, if_pos hd, List.append_assoc]
      congr 1
      cases w with
      | nil => simp [doubled] at hd
      | cons d w => simpa [doubled, List.head?] using (by simpa [doubled] using hd : _ ∧ d = c).2
    · rw [if_neg hd, if_neg hd, List.append_nil]
  have hsize : paramOpLen (v ++ (operatorText colon c ++ w)) v.length =
      (operatorText colon c ++ if doubled w c colon then [c] else []).length := by
    rw [hlen, List.length_append]
    split <;> rfl
  have hoperator : ((v ++ (operatorText colon c ++ w)).drop v.length).take
      (paramOpLen (v ++ (operatorText colon c ++ w)) v.length) =
      operatorText colon c ++ if doubled w c colon then [c] else [] := by
    rw [hsize, List.drop_left, hsplit, List.append_assoc, ← List.append_assoc, List.take_left]
  have hoperand : (v ++ (operatorText colon c ++ w)).drop
      (v.length + paramOpLen (v ++ (operatorText colon c ++ w)) v.length) =
      if doubled w c colon then w.drop 1 else w := by
    rw [hsize, ← List.drop_drop, List.drop_left]
    conv_lhs => rw [hsplit]
    rw [List.drop_left]
  rw [expandParameter_eq, hforms]
  dsimp only
  rw [expandOperator, hfind]
  dsimp only
  rw [hoperator, hoperand, List.take_left]

/-! ## 2. Error operators -/

/-- What another form makes of the text of an operator. -/
def otherForm (colon : Bool) (c : Char) (v w : List Char) (s : ShellState) : Outcome :=
  (Outcome.ofText (tryExpandArrayAllValues (v ++ (operatorText colon c ++ w)) s)).orElse
    (if colon then .skipped else tryExpandSubstring (v ++ (operatorText colon c ++ w)) s)

/-- The value of the variable as a text. -/
def valueText (v : List Char) (s : ShellState) : List Char :=
  ((s.getVar (String.ofList v)).getD "").toList

/-- The value that lets the operator through. -/
def hasValue (colon : Bool) (v : List Char) (s : ShellState) : Bool :=
  paramHasValue (s.getVar (String.ofList v)) colon

/-- `${v?w}` writes the value and nothing else, or it records an error and nothing else. -/
def Reports (colon : Bool) (v w : List Char) : Prop :=
  if hasValue colon v s then
    expandParameter x depth (v ++ (operatorText colon '?' ++ w)) s = some ([], valueText v s)
  else ∃ message, message ≠ [] ∧
    expandParameter x depth (v ++ (operatorText colon '?' ++ w)) s =
      some ([.setEntry "_SHELL_ERROR" (.ofScalar (String.ofList ('\x01' :: message)))], [])

theorem otherForm_ops {ops : List StateOp} {text : List Char}
    (h : otherForm colon c v w s = .handled ops text) : ops = [] := by
  unfold otherForm at h
  cases hvalues : tryExpandArrayAllValues (v ++ (operatorText colon c ++ w)) s with
  | some values =>
    rw [hvalues] at h
    cases h
    rfl
  | none =>
    rw [hvalues] at h
    cases colon with
    | true => cases h
    | false =>
      replace h : tryExpandSubstring (v ++ (operatorText false c ++ w)) s = .handled ops text := h
      unfold tryExpandSubstring at h
      dsimp only at h
      split at h
      · cases h
      · split at h
        · cases h
        · split at h
          · split at h
            · cases h
              rfl
            · revert h
              cases substring _ _ _ with
              | none => exact fun h => nomatch h
              | some text => exact fun h => (Outcome.handled.inj h).1.symm
          · cases h

/-- `expand_parameter` on an operator, by what the other forms make of its text. -/
theorem expandParameter_handled (hv : isValidIdentifier v = true) (hc : c ∈ operatorChars)
    {text : List Char} (h : otherForm colon c v w s = .handled [] text) :
    expandParameter x depth (v ++ (operatorText colon c ++ w)) s = some ([], text) := by
  rw [expandParameter_eq, forms_operator x s hv hc, ← otherForm, h]

theorem expandParameter_panicked (hv : isValidIdentifier v = true) (hc : c ∈ operatorChars)
    (h : otherForm colon c v w s = .panicked) :
    expandParameter x depth (v ++ (operatorText colon c ++ w)) s = none := by
  rw [expandParameter_eq, forms_operator x s hv hc, ← otherForm, h]

/-- What an error operator does that no other form has taken: with a colon the value goes
    into the message, and without one there is no message. -/
theorem expandParameter_error (hv : isValidIdentifier v = true)
    (h : otherForm colon '?' v w s = .skipped) :
    expandParameter x depth (v ++ (operatorText colon '?' ++ w)) s =
      some (if colon then expandParamErrorValue v (s.getVar (String.ofList v)) w true
        else ([], valueText v s)) := by
  rw [expandParameter_operator x depth s hv (by decide)
    (by rw [forms_operator x s hv (by decide), ← otherForm, h])]
  cases colon with
  | true => rfl
  | false =>
    by_cases hd : doubled w '?' false = true
    · rw [if_pos hd, if_pos hd]
      rfl
    · rw [if_neg hd, if_neg hd]
      rfl

end

end Wasmsh.Params

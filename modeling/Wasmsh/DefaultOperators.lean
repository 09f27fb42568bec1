import Wasmsh.Leaves
import Wasmsh.ParameterOperators
import Wasmsh.ScalarAssignment

/-!
# The table of the default, assign and alternative operators

What `${v-w}`, `${v=w}` and `${v+w}` are to expand to, for an operand that is written as
pieces of text and references, and when `expand_parameter` expands them to that.
-/

namespace Wasmsh.Params

open Expand Operands
open Utf8 (size)

/-! ## 1. Operands and what they stand for -/

/-- A piece of an operand: text without a `$`, `$name`, or `${inner}`. -/
inductive OperandPiece where
  | literal (text : List Char)
  | name (name : List Char)
  | braced (inner : List Char)
  deriving DecidableEq, Repr

/-- Every brace is closed, and none is closed that was not opened. -/
def bracesClose : Nat → List Char → Bool
  | n, [] => n == 0
  | n, '{' :: t => bracesClose (n + 1) t
  | n, '}' :: t => n != 0 && bracesClose (n - 1) t
  | n, _ :: t => bracesClose n t

namespace OperandPiece

/-- The source of a piece. -/
def source : OperandPiece → List Char
  | literal text => text
  | name n => '$' :: n
  | braced inner => '$' :: '{' :: (inner ++ ['}'])

/-- What a piece writes and its text; `lit` says how literal text is written, and
    `reference` expands the inside of `${inner}` or panics. -/
def expand (lit : List Char → List Char) (reference : Operands.Effect) (s : ShellState) :
    OperandPiece → Option (List StateOp × List Char)
  | literal text => some ([], lit text)
  | name n => some ([], valueText n s)
  | braced inner => reference inner s

end OperandPiece

/-- The source of an operand. -/
def sourceOf (ps : List OperandPiece) : List Char := ps.flatMap OperandPiece.source

/-- The pieces one after another. -/
def expandPieces (lit : List Char → List Char) (reference : Operands.Effect) :
    List OperandPiece → ShellState → Option (List StateOp × List Char)
  | [], _ => some ([], [])
  | p :: ps, s =>
    (p.expand lit reference s).bind fun first =>
      (expandPieces lit reference ps (s.after first.1)).map fun rest =>
        (first.1 ++ rest.1, first.2 ++ rest.2)

/-- The pieces are those that their source is read as: a name is as long as it can be. -/
def WellFormed : List OperandPiece → Prop
  | [] => True
  | .literal text :: ps => '$' ∉ text ∧ WellFormed ps
  | .name n :: ps => n.head?.any isNameStart ∧ n.all isNameByte ∧
      (sourceOf ps).head?.all (fun c => !isNameByte c) ∧ WellFormed ps
  | .braced inner :: ps => bracesClose 0 inner ∧ WellFormed ps

/-- The literal text of an operand. -/
def literalText (ps : List OperandPiece) : List Char :=
  ps.flatMap fun
    | .literal text => text
    | _ => []

section

variable {lit : List Char → List Char} {reference : Operands.Effect} {x : ParamRules}
  {s : ShellState} {ps : List OperandPiece}

@[simp] theorem sourceOf_cons (p : OperandPiece) (ps : List OperandPiece) :
    sourceOf (p :: ps) = p.source ++ sourceOf ps := rfl

/-- A reference goes up to the brace that closes it. -/
theorem scanBracedParam_closed {inner : List Char} {n : Nat} (h : bracesClose n inner = true)
    (rest : List Char) : scanBracedParam (n + 1) (inner ++ '}' :: rest) = (inner, rest) := by
  induction inner generalizing n with
  | nil =>
    obtain rfl : n = 0 := by simpa [bracesClose] using h
    rfl
  | cons c t ih =>
    rw [List.cons_append, scanBracedParam]
    by_cases hopen : c = '{'
    · subst hopen
      rw [if_neg (fun h => absurd h.1 (by decide)), if_pos rfl, ih (by simpa [bracesClose] using h)]
    · by_cases hclose : c = '}'
      · subst hclose
        have hpos : n ≠ 0 ∧ bracesClose (n - 1) t = true := by simpa [bracesClose] using h
        obtain ⟨k, rfl⟩ := Nat.exists_eq_succ_of_ne_zero hpos.1
        rw [if_neg (fun h => by omega), if_neg hopen, if_pos rfl,
          show k.succ + 1 - 1 = k.succ - 1 + 1 from rfl, ih hpos.2]
      · have hrest : bracesClose n t = true := by
          rwa [bracesClose] at h <;> assumption
        rw [if_neg (fun h => hclose h.1), if_neg hopen, if_neg hclose, ih hrest]

/-- A literal is read character by character. -/
theorem operandLoop_literal {text rest : List Char} (h : '$' ∉ text) (n : Nat) (s : ShellState) :
    operandLoop x reference (text.length + n) (text ++ rest) s =
      (operandLoop x reference n rest s).map fun e => (e.1, Utf8.encode text ++ e.2) := by
  induction text with
  | nil =>
    rw [List.length_nil, Nat.zero_add, List.nil_append]
    cases operandLoop x reference n rest s <;> rfl
  | cons c t ih =>
    have hc : c ≠ '$' := fun heq => h (heq ▸ List.mem_cons_self)
    have hturn : operandTurn x reference c (t ++ rest) s =
        some ⟨[], Utf8.encodeChar c, t ++ rest⟩ := if_neg hc
    rw [List.length_cons, Nat.add_right_comm, List.cons_append, operandLoop, hturn,
      Option.bind_some, show s.after [] = s from rfl, ih fun hmem => h (.tail _ hmem),
      Option.map_map]
    congr 1
    funext e
    simp

/-- What `expand_dollar_in_operand` makes of a reference. -/
theorem expandDollarInOperand_reference {p : OperandPiece} (hwell : WellFormed (p :: ps))
    {text : List Char} (hp : p.source = '$' :: text) (hliteral : ∀ t, p ≠ .literal t) :
    expandDollarInOperand x reference (text ++ sourceOf ps) s =
      (p.expand lit reference s).map fun e => ⟨e.1, e.2, sourceOf ps⟩ := by
  cases p with
  | literal t => exact absurd rfl (hliteral t)
  | name n =>
    obtain rfl : n = text := (List.cons.inj hp).2
    obtain ⟨hstart, hbytes, hnext, -⟩ := hwell
    cases n with
    | nil => cases hstart
    | cons c n =>
      have hstart : isNameStart c = true := hstart
      have hbytes := List.all_eq_true.mp hbytes
      have hopen : ∀ d, isNameStart d = false → c ≠ d := by
        rintro _ hd rfl
        rw [hstart] at hd
        cases hd
      have hend : (sourceOf ps).takeWhile isNameByte = [] ∧
          (sourceOf ps).dropWhile isNameByte = sourceOf ps := by
        cases hsource : sourceOf ps with
        | nil => exact ⟨rfl, rfl⟩
        | cons d r =>
          rw [hsource] at hnext
          have hd : isNameByte d = false := by simpa using hnext
          exact ⟨List.takeWhile_cons_of_neg (by simp [hd]), List.dropWhile_cons_of_neg (by simp [hd])⟩
      have htake : ((c :: n) ++ sourceOf ps).takeWhile isNameByte = c :: n := by
        rw [List.takeWhile_append_of_pos hbytes, hend.1, List.append_nil]
      have hdrop : ((c :: n) ++ sourceOf ps).dropWhile isNameByte = sourceOf ps := by
        rw [List.dropWhile_append_of_pos hbytes, hend.2]
      rw [List.cons_append] at htake hdrop ⊢
      unfold expandDollarInOperand
      split
      · next heq => exact absurd (List.cons.inj heq).1 (hopen '{' (by decide))
      · next heq => exact absurd (List.cons.inj heq).1 (hopen '(' (by decide))
      · next d r _ _ heq =>
        obtain ⟨rfl, rfl⟩ := List.cons.inj heq
        rw [if_pos hstart, htake, hdrop]
        rfl
      · next heq => cases heq
  | braced inner =>
    obtain rfl : '{' :: (inner ++ ['}']) = text := (List.cons.inj hp).2
    have hscan := scanBracedParam_closed hwell.1 (sourceOf ps)
    rw [List.cons_append, List.append_assoc, List.singleton_append, expandDollarInOperand, hscan]
    rfl

/-- The loop of `expand_operand_inner` reads the pieces, and writes the bytes of their
    literal text. -/
theorem operandLoop_pieces (hwell : WellFormed ps) {n : Nat} (hn : (sourceOf ps).length ≤ n)
    (s : ShellState) :
    operandLoop x reference n (sourceOf ps) s = expandPieces Utf8.encode reference ps s := by
  induction ps generalizing n s with
  | nil => cases n <;> rfl
  | cons p ps ih =>
    rw [sourceOf_cons, List.length_append] at hn
    by_cases hliteral : ∃ t, p = .literal t
    · obtain ⟨t, rfl⟩ := hliteral
      obtain ⟨k, rfl⟩ := Nat.exists_eq_add_of_le ((Nat.le_add_right _ _).trans hn)
      rw [sourceOf_cons, OperandPiece.source, operandLoop_literal hwell.1,
        ih hwell.2 (Nat.le_of_add_le_add_left hn), expandPieces, OperandPiece.expand,
        Option.bind_some]
      rfl
    · have hsource : ∃ text, p.source = '$' :: text := by
        cases p with
        | literal t => exact absurd ⟨t, rfl⟩ hliteral
        | name n => exact ⟨_, rfl⟩
        | braced inner => exact ⟨_, rfl⟩
      have hrest : WellFormed ps := by
        cases p with
        | literal t => exact hwell.2
        | name n => exact hwell.2.2.2
        | braced inner => exact hwell.2
      obtain ⟨text, hp⟩ := hsource
      have hdollar := @expandDollarInOperand_reference Utf8.encode reference x s ps p hwell text hp
        fun t ht => hliteral ⟨t, ht⟩
      rw [hp, List.length_cons] at hn
      obtain ⟨k, rfl⟩ := Nat.exists_eq_add_of_le' (Nat.le_trans (by omega) hn : 1 ≤ n)
      rw [sourceOf_cons, hp, List.cons_append, operandLoop, operandTurn, if_pos rfl, hdollar,
        expandPieces, Option.bind_map]
      congr 1
      funext e
      exact congrArg _ (ih hrest (by omega) _)

/-- An operand without a `$` stands for itself. -/
theorem expandPieces_plain (h : '$' ∉ sourceOf ps) :
    expandPieces id reference ps s = some ([], sourceOf ps) := by
  induction ps with
  | nil => rfl
  | cons p ps ih =>
    rw [sourceOf_cons, List.mem_append, not_or] at h
    cases p with
    | literal t =>
      rw [expandPieces, OperandPiece.expand, Option.bind_some, show s.after [] = s from rfl,
        ih h.2]
      rfl
    | name n => exact absurd List.mem_cons_self h.1
    | braced inner => exact absurd List.mem_cons_self h.1

/-- Two expansions that both panic, or write the same and have texts that are related. -/
def Alike (related : List Char → List Char → Prop) : (e e' : Option (List StateOp × List Char)) →
    Prop
  | none, none => True
  | some e, some e' => e.1 = e'.1 ∧ related e.2 e'.2
  | _, _ => False

/-- How literal text is written makes no difference to the writes, and makes the text longer
    by what it makes the literal text longer. -/
theorem expandPieces_encode (ps : List OperandPiece) (s : ShellState) :
    Alike (fun t t' => t.length + (literalText ps).length = t'.length + size (literalText ps))
      (expandPieces Utf8.encode reference ps s) (expandPieces id reference ps s) := by
  induction ps generalizing s with
  | nil => exact ⟨rfl, rfl⟩
  | cons p ps ih =>
    -- the first piece with its literal text, and then what the other pieces make of it
    have hstep : ∀ (front : List Char) (first first' : List StateOp × List Char),
        literalText (p :: ps) = front ++ literalText ps → first.1 = first'.1 →
        first.2.length + front.length = first'.2.length + size front →
        p.expand Utf8.encode reference s = some first → p.expand id reference s = some first' →
        Alike (fun t t' => t.length + (literalText (p :: ps)).length =
            t'.length + size (literalText (p :: ps)))
          (expandPieces Utf8.encode reference (p :: ps) s)
          (expandPieces id reference (p :: ps) s) := by
      intro front first first' hfront hops htext hfirst hfirst'
      have hrest := ih (s.after first'.1)
      rw [expandPieces, hfirst, Option.bind_some, expandPieces, hfirst', Option.bind_some, hops,
        hfront, List.length_append, Utf8.size_append]
      cases hmore : expandPieces Utf8.encode reference ps (s.after first'.1) with
      | none =>
        rw [hmore] at hrest
        cases hmore' : expandPieces id reference ps (s.after first'.1) with
        | none => trivial
        | some e' => rw [hmore'] at hrest; exact hrest
      | some e =>
        rw [hmore] at hrest
        cases hmore' : expandPieces id reference ps (s.after first'.1) with
        | none => rw [hmore'] at hrest; exact hrest
        | some e' =>
          rw [hmore'] at hrest
          refine ⟨congrArg (first'.1 ++ ·) hrest.1, ?_⟩
          have hlength := hrest.2
          simp only [List.length_append] at hlength ⊢
          omega
    cases p with
    | literal t =>
      refine hstep t ([], Utf8.encode t) ([], t) rfl rfl ?_ rfl rfl
      exact Nat.add_comm _ _
    | name n => exact hstep [] _ _ rfl rfl rfl rfl rfl
    | braced inner =>
      cases href : reference inner s with
      | none => simp [expandPieces, OperandPiece.expand, href, Alike]
      | some e => exact hstep [] e e rfl rfl rfl href href

theorem expandPieces_ascii (h : ∀ b ∈ literalText ps, b.toNat < 0x80) :
    expandPieces Utf8.encode reference ps s = expandPieces id reference ps s := by
  induction ps generalizing s with
  | nil => rfl
  | cons p ps ih =>
    have hrest : ∀ b ∈ literalText ps, b.toNat < 0x80 := fun b hb =>
      h b (by rw [literalText, List.flatMap_cons]; exact List.mem_append_right _ hb)
    have hpiece : p.expand Utf8.encode reference s = p.expand id reference s := by
      cases p with
      | literal t =>
        have ht : ∀ b ∈ t, b.toNat < 0x80 := fun b hb => h b (List.mem_append_left _ hb)
        exact congrArg (fun e => some ([], e)) (Utf8.encode_of_ascii ht)
      | name n => rfl
      | braced inner => rfl
    rw [expandPieces, expandPieces, hpiece]
    congr 1
    funext first
    rw [ih hrest]

/-- What `expand_operand_inner` makes of an operand. -/
theorem expandOperandInner_pieces (hwell : WellFormed ps) (room : Nat) (s : ShellState) :
    Alike (fun t t' => t = t' ↔ ('$' ∈ sourceOf ps → ∀ b ∈ literalText ps, b.toNat < 0x80))
      (expandOperandInner x (room + 1) (sourceOf ps) s)
      (expandPieces id (expandBraced x room) ps s) := by
  rw [expandOperandInner]
  by_cases hdollar : '$' ∈ sourceOf ps
  · rw [if_pos (List.contains_iff_mem.mpr hdollar), operandLoop_pieces hwell (Nat.le_refl _)]
    have hencode := @expandPieces_encode (expandBraced x room) ps s
    have hascii := @expandPieces_ascii (expandBraced x room) s ps
    revert hencode hascii
    cases expandPieces Utf8.encode (expandBraced x room) ps s with
    | none =>
      cases expandPieces id (expandBraced x room) ps s with
      | none => exact fun _ _ => trivial
      | some e' => exact fun h _ => h
    | some e =>
      cases expandPieces id (expandBraced x room) ps s with
      | none => exact fun h _ => h
      | some e' =>
        intro hencode hascii
        refine ⟨hencode.1, ?_⟩
        constructor
        · intro heq _ b hb
          by_contra hwide
          -- a character of two bytes makes the text longer
          have hlong : (literalText ps).length < size (literalText ps) := by
            obtain ⟨front, back, hsplit⟩ := List.append_of_mem hb
            have hchar := Utf8.one_lt_length_encodeChar (Nat.le_of_not_lt hwide)
            have hfront := Utf8.length_le_size front
            have hback := Utf8.length_le_size back
            rw [hsplit, Utf8.size_append, Utf8.size_cons, List.length_append, List.length_cons]
            omega
          have hlengths := hencode.2
          rw [heq] at hlengths
          omega
        · intro h
          rw [Option.some.inj (hascii (h hdollar))]
  · rw [if_neg (by rwa [List.contains_iff_mem]), expandPieces_plain hdollar]
    exact ⟨rfl, iff_of_true rfl fun h => absurd h hdollar⟩

/-- Literal text at the start of an operand starts its expansion. -/
theorem head?_expandPieces {c : Char} (hc : c ≠ '$') (h : (sourceOf ps).head? = some c)
    {e : List StateOp × List Char} (he : expandPieces id reference ps s = some e) : e.2 ≠ [] := by
  induction ps generalizing e with
  | nil => cases h
  | cons p ps ih =>
    cases p with
    | literal t =>
      rcases Option.map_eq_some_iff.mp he with ⟨rest, hrest, rfl⟩
      cases t with
      | nil => exact ih h hrest
      | cons d t => exact List.cons_ne_nil _ _
    | name n => exact absurd (Option.some.inj h).symm hc
    | braced inner => exact absurd (Option.some.inj h).symm hc

end

/-! ## 2. The table -/

/-- The operators of the table. -/
def tableChars : List Char := ['-', '=', '+']

/-- What the table prescribes, if the operand does not panic. -/
def prescribed (reference : Operands.Effect) (colon : Bool) (c : Char) (v : List Char)
    (ps : List OperandPiece) (s : ShellState) : Option (List StateOp × List Char) :=
  let operand := expandPieces id reference ps s
  if c = '+' then if hasValue colon v s then operand else some ([], [])
  else if hasValue colon v s then some ([], valueText v s)
  else if c = '=' then
    operand.map fun e => (e.1 ++ [.setVar (String.ofList v) (String.ofList e.2)], e.2)
  else operand

section

variable (x : Rules) (depth : Nat) (s : ShellState) (colon : Bool) (c : Char) (v : List Char)
  (ps : List OperandPiece)

/-- The inside of a `${` in the operand, one deeper than the operand. -/
def referenceAt : Operands.Effect := expandBraced (paramRules x) (maxExpandDepth - (depth + 1))

/-- The text and the state are those of the table, and an assigned variable holds the text. -/
def FollowsTable : Prop :=
  ∃ ops meant, prescribed (referenceAt x depth) colon c v ps s = some meant ∧
    expandParameter x depth (v ++ (operatorText colon c ++ sourceOf ps)) s = some (ops, meant.2) ∧
    s.applyAll ops = s.applyAll meant.1 ∧
    (c = '=' → hasValue colon v s = false → ∃ s', s.applyAll ops = some s' ∧
      s'.holds (String.ofList v) (String.ofList meant.2))

/-- The operand is expanded as its pieces say: a `$` anywhere in it makes its literal text
    bytes. -/
def PlainOperand : Prop :=
  doubled (sourceOf ps) c colon = false ∧
    ('$' ∈ sourceOf ps → ∀ b ∈ literalText ps, b.toNat < 0x80)

/-- No reference in the operand panics. -/
def OperandReturns : Prop := (expandPieces id (referenceAt x depth) ps s).isSome = true

/-- After the operand the variable can be assigned, or it holds the text already. -/
def TakesOperand : Prop :=
  ∃ e s', expandPieces id (referenceAt x depth) ps s = some e ∧ s.applyAll e.1 = some s' ∧
    (s'.writesItself (String.ofList v) ∨ s'.spares (String.ofList v) ∧
      s'.holds (String.ofList v) (String.ofList e.2))

/-- The operand of `+` is its own expansion; a doubled `+` writes the value instead. -/
def StandsForItself : Prop :=
  ∃ e, expandPieces id (referenceAt x depth) ps s = some e ∧
    (if doubled (sourceOf ps) c colon then valueText v s else sourceOf ps) = e.2 ∧
    s.applyAll e.1 = some s

/-- When the code follows the table. -/
def TableCondition : Prop :=
  match otherForm colon c v (sourceOf ps) s with
  | .panicked => False
  | .handled _ text =>
    ∃ meant, prescribed (referenceAt x depth) colon c v ps s = some meant ∧ text = meant.2 ∧
      s.applyAll meant.1 = some s ∧
      (c = '=' → hasValue colon v s = false →
        s.holds (String.ofList v) (String.ofList text))
  | .skipped =>
    if c = '+' then hasValue colon v s = true → StandsForItself x depth s colon c v ps
    else hasValue colon v s = true ∨ PlainOperand colon c ps ∧ OperandReturns x depth s ps ∧
      (c = '=' → TakesOperand x depth s v ps)

/-! ## 3. What the code does -/

variable {x depth s colon c v ps}

/-- An operator of the table that takes in no second character. -/
theorem expandParamOp_table (hc : c ∈ tableChars) (xr : ParamRules) (operand : Operands.Effect)
    (w : List Char) : expandParamOp xr operand v (operatorText colon c) w s =
      if c = '+' then some ([], if hasValue colon v s then w else [])
      else if hasValue colon v s then some ([], valueText v s)
      else if c = '=' then (operand w s).map fun e =>
        (e.1 ++ [.setVar (String.ofList v) (String.ofList e.2)], e.2)
      else operand w s := by
  simp only [tableChars, List.mem_cons, List.not_mem_nil, or_false] at hc
  rcases hc with rfl | rfl | rfl
  · rw [if_neg (by decide : ¬ '-' = '+'), if_neg (by decide : ¬ '-' = '=')]
    cases colon <;> rfl
  · rw [if_neg (by decide : ¬ '=' = '+'), if_pos rfl]
    cases colon <;> rfl
  · cases colon <;> rfl

/-- A doubled operator is none, and the value is written. -/
theorem expandParamOp_doubled (hc : c ∈ tableChars) (xr : ParamRules) (operand : Operands.Effect)
    (w : List Char) :
    expandParamOp xr operand v [c, c] w s = some ([], valueText v s) := by
  simp only [tableChars, List.mem_cons, List.not_mem_nil, or_false] at hc
  rcases hc with rfl | rfl | rfl <;> rfl

/-- Without a value there is nothing to write under a name that is not set. -/
theorem valueText_of_unset (h : hasValue colon v s = false) : valueText v s = [] := by
  rw [valueText]
  rw [hasValue] at h
  cases hget : s.getVar (String.ofList v) with
  | none => rfl
  | some value =>
    rw [hget] at h
    cases colon with
    | false => cases h
    | true =>
      have hempty : value = "" := by simpa [paramHasValue] using h
      rw [hempty]
      rfl

theorem mem_operatorChars (hc : c ∈ tableChars) : c ∈ operatorChars :=
  (List.all_iff_forall_prop.mp (by decide) : ∀ c ∈ tableChars, c ∈ operatorChars) c hc

/-- What an operator of the table does that no other form has taken. -/
theorem expandParameter_table (hv : isValidIdentifier v = true) (hc : c ∈ tableChars)
    (hother : otherForm colon c v (sourceOf ps) s = .skipped) :
    expandParameter x depth (v ++ (operatorText colon c ++ sourceOf ps)) s =
      if doubled (sourceOf ps) c colon then some ([], valueText v s)
      else if c = '+' then some ([], if hasValue colon v s then sourceOf ps else [])
      else if hasValue colon v s then some ([], valueText v s)
      else if c = '=' then
        (expandOperandInner (paramRules x) (maxExpandDepth - depth) (sourceOf ps) s).map fun e =>
          (e.1 ++ [.setVar (String.ofList v) (String.ofList e.2)], e.2)
      else expandOperandInner (paramRules x) (maxExpandDepth - depth) (sourceOf ps) s := by
  rw [expandParameter_operator x depth s hv (mem_operatorChars hc)
    (by rw [forms_operator x s hv (mem_operatorChars hc), ← otherForm, hother])]
  by_cases hd : doubled (sourceOf ps) c colon = true
  · obtain rfl : colon = false := by
      cases colon with
      | false => rfl
      | true => cases hd
    rw [if_pos hd, if_pos hd, if_pos hd]
    exact expandParamOp_doubled hc _ _ _
  · rw [if_neg hd, if_neg hd, if_neg hd, List.append_nil, expandParamOp_table hc]

/-- The table for an operator that assigns or writes its operand, without a value. -/
theorem prescribed_of_unset (reference : Operands.Effect) (hplus : c ≠ '+')
    (h : hasValue colon v s = false) : prescribed reference colon c v ps s =
      if c = '=' then (expandPieces id reference ps s).map fun e =>
        (e.1 ++ [.setVar (String.ofList v) (String.ofList e.2)], e.2)
      else expandPieces id reference ps s := by
  unfold prescribed
  dsimp only
  rw [if_neg hplus, if_neg (by rw [h]; exact Bool.false_ne_true)]

/-- The writes of the operand and then the assignment leave the text under the name. -/
theorem takesOperand_iff {e : List StateOp × List Char}
    (he : expandPieces id (referenceAt x depth) ps s = some e) : TakesOperand x depth s v ps ↔
    ∃ s', s.applyAll (e.1 ++ [.setVar (String.ofList v) (String.ofList e.2)]) = some s' ∧
      s'.holds (String.ofList v) (String.ofList e.2) := by
  have hset : ∀ (t : ShellState) (name value : String),
      t.applyAll [.setVar name value] = t.setVar name value := by
    intro t name value
    simp [ShellState.applyAll, ShellState.apply]
  rw [ShellState.applyAll_append, TakesOperand]
  simp only [he, Option.some_inj, exists_and_left, exists_eq_left']
  cases s.applyAll e.1 with
  | none => simp
  | some t => simp [hset, ShellState.setVar_stores_iff]

/-- Without a value, `-` and `=` follow the table on the operands that are expanded as their
    pieces say. -/
theorem followsTable_of_unset (hv : isValidIdentifier v = true) (hc : c ∈ tableChars)
    (hwell : WellFormed ps) (hdepth : depth < maxExpandDepth)
    (hother : otherForm colon c v (sourceOf ps) s = .skipped) (hplus : c ≠ '+')
    (hunset : hasValue colon v s = false) : FollowsTable x depth s colon c v ps ↔
      PlainOperand colon c ps ∧ OperandReturns x depth s ps ∧
        (c = '=' → TakesOperand x depth s v ps) := by
  rw [FollowsTable, expandParameter_table hv hc hother, prescribed_of_unset _ hplus hunset,
    if_neg hplus, hunset, if_neg Bool.false_ne_true, PlainOperand, OperandReturns]
  cases hd : doubled (sourceOf ps) c colon with
  | true =>
    have hhead : (sourceOf ps).head? = some c := by
      have hboth : colon = false ∧ (sourceOf ps).head? = some c := by
        simpa [doubled] using hd
      exact hboth.2
    have hdollar := (List.all_iff_forall_prop.mp (by decide) : ∀ c ∈ tableChars, c ≠ '$') c hc
    rw [if_pos rfl, valueText_of_unset hunset]
    refine iff_of_false ?_ (by simp)
    rintro ⟨ops, meant, hmeant, hcode, -⟩
    -- the operand starts with literal text, and the code writes nothing
    have hempty : meant.2 = [] := (Prod.mk.inj (Option.some.inj hcode)).2.symm
    split at hmeant
    · rcases Option.map_eq_some_iff.mp hmeant with ⟨e, he, rfl⟩
      exact head?_expandPieces hdollar hhead he hempty
    · exact head?_expandPieces hdollar hhead hmeant hempty
  | false =>
    have hroom : maxExpandDepth - depth = maxExpandDepth - (depth + 1) + 1 := by omega
    have hoperand := @expandOperandInner_pieces (paramRules x) ps hwell
      (maxExpandDepth - (depth + 1)) s
    rw [← hroom, ← referenceAt] at hoperand
    rw [if_neg Bool.false_ne_true]
    cases hcode : expandOperandInner (paramRules x) (maxExpandDepth - depth) (sourceOf ps) s with
    | none =>
      rw [hcode] at hoperand
      cases hmeant : expandPieces id (referenceAt x depth) ps s with
      | some e => rw [hmeant] at hoperand; exact hoperand.elim
      | none => simp
    | some e =>
      rw [hcode] at hoperand
      cases hmeant : expandPieces id (referenceAt x depth) ps s with
      | none => rw [hmeant] at hoperand; exact hoperand.elim
      | some e' =>
        rw [hmeant] at hoperand
        obtain ⟨ops, text⟩ := e
        obtain ⟨ops', text'⟩ := e'
        obtain ⟨rfl, htext⟩ := hoperand
        dsimp only at htext
        by_cases hassign : c = '='
        · rw [if_pos hassign, if_pos hassign, takesOperand_iff hmeant]
          simp only [Option.map_some, Option.some_inj, exists_eq_left', Prod.mk.injEq]
          constructor
          · rintro ⟨_, ⟨rfl, rfl⟩, hstate, hholds⟩
            rw [hstate] at hholds
            exact ⟨⟨trivial, htext.mp rfl⟩, rfl, fun _ => hholds hassign trivial⟩
          · rintro ⟨⟨-, hplain⟩, -, htakes⟩
            obtain rfl := htext.mpr hplain
            exact ⟨_, ⟨rfl, rfl⟩, rfl, fun _ _ => htakes hassign⟩
        · rw [if_neg hassign, if_neg hassign]
          simp only [Option.some_inj, exists_eq_left', Prod.mk.injEq]
          constructor
          · rintro ⟨_, ⟨rfl, rfl⟩, -, -⟩
            exact ⟨⟨trivial, htext.mp rfl⟩, rfl, fun h => absurd h hassign⟩
          · rintro ⟨⟨-, hplain⟩, -, -⟩
            exact ⟨_, ⟨rfl, htext.mpr hplain⟩, rfl, fun h => absurd h hassign⟩

end

end Wasmsh.Params

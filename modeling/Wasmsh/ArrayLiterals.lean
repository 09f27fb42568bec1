import Mathlib.Data.Bool.AllAny
import Wasmsh.ArrayScanner
import Wasmsh.CompoundAssignments
import Wasmsh.ErrorReports
import Wasmsh.ShellHost

/-!
# What an array literal stores

`name=(words)` is parsed to one assignment whose value is the text of the literal; both
evaluators hand the text to the scanner of array literals.  This module says when the
elements, or the values of the pairs, are there afterwards.
-/

open Wasmsh.Parser

namespace Wasmsh

open Hir IndexMap Expand Interp

variable {name : String}

/-! ## 1. The text of a literal -/

/-- The text `target=(words)`. -/
def literalText (target : String) (words : List (List Char)) : String :=
  String.ofList (literalBytes target.toList (joined words))

/-- A text that the lexer takes for one word. -/
def IsWritten (u : List Char) : Prop := ∃ ps, IsWord ps ∧ Utf8.encode u = bytesOf ps

theorem isWritten_quoteText (t : List Char) : IsWritten (quoteText t) :=
  ⟨_, isWord_quotedPieces t, encode_quoteText t⟩

theorem isWritten_pairText (p : String × String) : IsWritten (pairText p) := by
  refine ⟨.plain '[' :: (quotedPieces [] p.1.toList ++ [.plain ']', .plain '='] ++
    quotedPieces [] p.2.toList), ⟨?_, by simp, by simp, ?_, ?_⟩, ?_⟩
  · intro piece hpiece
    simp only [List.mem_cons, List.mem_append, List.not_mem_nil, or_false] at hpiece
    rcases hpiece with rfl | (hkey | rfl | rfl) | hvalue
    · exact (by decide : isPlainByte '[' = true)
    · exact quotedPieces_wellFormed [] _ (by simp) piece hkey
    · exact (by decide : isPlainByte ']' = true)
    · exact (by decide : isPlainByte '=' = true)
    · exact quotedPieces_wellFormed [] _ (by simp) piece hvalue
  · rcases head_quotedPieces [] p.1.toList with ⟨v, ps, hhead⟩
    simp [hhead, Piece.bytes]
  · simp [Piece.bytes]
  · simp [pairText, encode_quoteText, bytesOf, Piece.bytes, Utf8.encodeChar]

/-- The word of a literal. -/
def literalValue (words : List (List Char)) : Word := ⟨[.literal ('(' :: joined words ++ [')'])]⟩

theorem textOf_toList {target : String} (ht : ∀ c ∈ target.toList, c.toNat < 0x80) :
    textOf target.toList = target := by
  have hdecode := Utf8.decode_encode target.toList
  rw [Utf8.encode_of_ascii ht] at hdecode
  rw [textOf, hdecode, String.ofList_toList]

theorem encode_literalText {target : String} (ht : IsTarget target.toList)
    (words : List (List Char)) : Utf8.encode (literalText target words).toList =
      literalBytes target.toList (Utf8.encode (joined words)) := by
  simp only [literalText, literalBytes, String.toList_ofList, Utf8.encode_append,
    Utf8.encode_of_ascii ht.ascii]
  simp [Utf8.encodeChar]

/-- The assignment that a literal is parsed to. -/
theorem parse_literalText {target : String} (ht : IsTarget target.toList)
    {us : List (List Char)} (hne : us ≠ []) (hus : ∀ v ∈ us, IsWritten v) :
    ∃ span, parse (literalText target us) = .ok (commandProgram
      (.assign [⟨target, some (literalValue us)⟩] []) span) := by
  have hpieces : ∀ {us : List (List Char)}, (∀ v ∈ us, IsWritten v) →
      ∃ ws : List (List Piece), (∀ ps ∈ ws, IsWord ps) ∧
        List.Forall₂ (fun u ps => Utf8.encode u = bytesOf ps) us ws ∧
        (ws.map bytesOf).map Utf8.decode = us := by
    intro us hus
    induction us with
    | nil => exact ⟨[], by simp, .nil, rfl⟩
    | cons u us ih =>
      rcases hus u (.head _) with ⟨ps, hword, hbytes⟩
      rcases ih fun v hv => hus v (.tail _ hv) with ⟨ws, hwords, hall, htexts⟩
      refine ⟨ps :: ws, ?_, .cons hbytes hall, ?_⟩
      · simpa using ⟨hword, hwords⟩
      · rw [List.map_cons, List.map_cons, htexts, ← hbytes, Utf8.decode_encode]
  rcases hpieces hus with ⟨ws, hwords, hall, htexts⟩
  cases hall with
  | nil => exact absurd rfl hne
  | @cons u w us ws hu hall =>
    have htext : Utf8.encode (literalText target (u :: us)).toList =
        literalBytes target.toList (lineBytes w ws) := by
      rw [encode_literalText ht, joined, encode_intercalate hu hall]
    rcases parse_literal ht (hwords w (.head _)) (fun ps hps => hwords ps (.tail _ hps)) htext
      with ⟨span, hparse⟩
    refine ⟨span, ?_⟩
    rw [hparse, textOf_toList ht.ascii, compoundText, htexts]
    rfl

theorem isNameByte_ascii {c : Char} (hc : isNameByte c = true) : c.toNat < 0x80 := by
  simp only [isNameByte, Char.isAlphanum, isAlpha_eq, Char.isDigit,
    Bool.or_eq_true, Bool.and_eq_true, decide_eq_true_eq, beq_iff_eq, ge_iff_le,
    UInt32.le_iff_toNat_le] at hc
  rcases hc with ((⟨-, hle⟩ | ⟨-, hle⟩) | ⟨-, hle⟩) | rfl
  · exact Nat.lt_of_le_of_lt hle (by decide)
  · exact Nat.lt_of_le_of_lt hle (by decide)
  · exact Nat.lt_of_le_of_lt hle (by decide)
  · decide

theorem isNameByte_plain {c : Char} (hc : isNameByte c = true) : isPlainByte c = true := by
  have hspecial : ∀ b ∈ [' ', '\t', '\n', ';', '&', '|', '<', '>', '(', ')'] ++
      ['\'', '"', '`', '\\', '$'], isNameByte b = false :=
    List.all_iff_forall_prop.mp (by decide)
  have hnot : c ∉ [' ', '\t', '\n', ';', '&', '|', '<', '>', '(', ')'] ++
      ['\'', '"', '`', '\\', '$'] := by
    intro hmem
    rw [hspecial c hmem] at hc
    cases hc
  rw [List.mem_append, not_or] at hnot
  simp only [isPlainByte, Lex.isWordBreak, Bool.and_eq_true, Bool.not_eq_true', ← Bool.not_eq_true,
    List.contains_iff_mem]
  exact hnot

/-- The text before the `=` is a name, alone or with a `+`. -/
theorem isAssignmentText_of_identifier (hname : isIdentifier name = true)
    {plus : List Char} (hplus : plus = [] ∨ plus = ['+']) :
    isAssignmentText (name.toList ++ plus ++ ['=']) = true := by
  have hbyte : ∀ c ∈ name.toList, isNameByte c = true := fun c hc => isNameByte_of_mem hname hc
  have hnot : ∀ b, isNameByte b = false → b ∉ name.toList := by
    intro b hb hmem
    rw [hbyte b hmem] at hb
    cases hb
  have htake : (name.toList ++ plus ++ ['=']).takeWhile (· != '=') = name.toList ++ plus := by
    refine (span_until ?_ []).1
    rw [List.mem_append, not_or]
    refine ⟨hnot '=' (by decide), ?_⟩
    rcases hplus with rfl | rfl <;> decide
  have hlast : (if (name.toList ++ plus).getLast? = some '+' then (name.toList ++ plus).dropLast
      else name.toList ++ plus) = name.toList := by
    rcases hplus with rfl | rfl
    · rw [List.append_nil, if_neg]
      exact fun h => hnot '+' (by decide) (List.mem_of_getLast? h)
    · simp
  have hbracket : name.toList.contains '[' = false := by
    rw [← Bool.not_eq_true, List.contains_iff_mem]
    exact hnot '[' (by decide)
  have hequals : (name.toList ++ plus ++ ['=']).contains '=' = true := by simp
  simp only [isAssignmentText, hequals, Bool.not_true, Bool.false_eq_true, if_false, htake, hlast,
    hbracket]
  exact hname

/-- A name, alone or before a `+`, is a target. -/
theorem isTarget_of_identifier (hname : isIdentifier name = true)
    {plus : List Char} (hplus : plus = [] ∨ plus = ['+']) : IsTarget (name.toList ++ plus) where
  no_equals := by
    rw [List.mem_append, not_or]
    constructor
    · intro hmem
      exact absurd (isNameByte_of_mem hname hmem) (by decide)
    · rcases hplus with rfl | rfl <;> decide
  assigns := isAssignmentText_of_identifier hname hplus
  text := by
    have hbyte : ∀ c ∈ name.toList ++ plus ++ ['='], isNameByte c = true ∨ c ∈ ['+', '='] := by
      intro c hc
      simp only [List.mem_append] at hc
      rcases hc with (hc | hc) | hc
      · exact Or.inl (isNameByte_of_mem hname hc)
      · rcases hplus with rfl | rfl
        · cases hc
        · exact Or.inr (List.mem_append_left ['='] hc)
      · exact Or.inr (List.mem_append_right ['+'] hc)
    refine ⟨by simp, ?_, ?_, ?_, ?_, ?_⟩
    · intro c hc
      rcases hbyte c hc with h | h
      · exact isNameByte_ascii h
      · have hascii : ∀ c ∈ ['+', '='], c.toNat < 0x80 := List.all_iff_forall_prop.mp (by decide)
        exact hascii c h
    · intro c hc
      rcases hbyte c hc with h | h
      · exact isNameByte_plain h
      · have hplain : ∀ c ∈ ['+', '='], isPlainByte c = true :=
          List.all_iff_forall_prop.mp (by decide)
        exact hplain c h
    · intro hhead
      have hmem := hbyte '#' (List.mem_of_head? hhead)
      revert hmem
      decide
    · intro heq
      have hlast := congrArg List.getLast? heq
      simp at hlast
    · intro heq
      have hlast := congrArg List.getLast? heq
      simp at hlast

/-! ## 2. Running the assignment -/

variable {W P : Type}

/-- The fields of `"${name[@]}"`. -/
def allElements (x : Expander) (name : String) (st : ShellState) : List (List Char) :=
  (expandWordArgv x ⟨[.doubleQuoted [.parameter (name.toList ++ ['[', '@', ']'])]]⟩ st).2.map
    Masked.text

/-- The text is one assignment, and each evaluator that takes it ends it in a state of which
    `Q` holds. -/
def Assigns (h : Host W P) (r : Recs W P) (s : Runtime W) (text : String)
    (Q : ShellState → Prop) : Prop :=
  ∃ a span, h.parse text = .ok (commandProgram (.assign [a] []) span) ∧
    (∃ t, executeAssignment h r a s = .ok t ∧ Q t.state) ∧
    (vmSupportedAssignmentName a.name = true →
      ∃ t, vmAssign h a.name a.value s = .ok t ∧ Q t.state)

theorem multiFields_fields (es : List (List Char)) :
    (multiFields [.fields es true]).map Masked.text = es := by
  cases es with
  | nil => rfl
  | cons e es =>
    let fields := Masked.ofText true e :: es.map (Masked.ofText true)
    have hfields : multiFields [.fields (e :: es) true] =
        fields.dropLast ++ [fields.getLastD []] := rfl
    have hlast : fields.getLastD [] = fields.getLast (List.cons_ne_nil _ _) := by
      rw [List.getLast_eq_getLastD, List.getLastD_cons]
    rw [hfields, hlast, List.dropLast_append_getLast]
    simp [fields, Masked.text_ofText, Function.comp_def]

theorem arrayMultiExpansion_all (hname : isIdentifier name = true)
    (st : ShellState) : arrayMultiExpansion (name.toList ++ ['[', '@', ']']) st =
      some ((st.getArrayValues name).map String.toList) := by
  have hspan : '[' ∉ name.toList := fun hmem =>
    absurd (isNameByte_of_mem hname hmem) (by decide)
  have hsplit := span_until hspan ['@', ']']
  have hne : name.toList ≠ [] := by
    intro hnil
    simp [isIdentifier, hnil] at hname
  cases hcs : name.toList with
  | nil => exact absurd hcs hne
  | cons c cs =>
    have hc : isNameByte c = true := isNameByte_of_mem hname (by rw [hcs]; exact .head _)
    have hbang : c ≠ '!' := by
      rintro rfl
      exact absurd hc (by decide)
    have hhash : c ≠ '#' := by
      rintro rfl
      exact absurd hc (by decide)
    rw [hcs] at hsplit
    have htext : c :: cs ++ ['[', '@', ']'] = c :: cs ++ '[' :: ['@', ']'] := rfl
    have hall : c :: cs ++ '[' :: ['@', ']'] ≠ ['@'] := by
      intro heq
      have hlen := congrArg List.length heq
      simp at hlen
    unfold arrayMultiExpansion
    rw [htext, if_neg hall, hsplit.2, hsplit.1]
    rw [if_neg (by simp)]
    dsimp only
    split
    · next heq => exact absurd (List.cons.inj heq).1 hbang
    · rw [if_neg (by simp [hhash]), ← hcs, String.ofList_toList]
      rfl

theorem afterAllElements_append {t : List Char} (ht : '[' ∉ t) :
    afterAllElements (t ++ ['[', '@', ']']) = some [] := by
  induction t with
  | nil => rfl
  | cons c t ih =>
    simp only [List.mem_cons, not_or] at ht
    rw [List.cons_append, afterAllElements.eq_2]
    · exact ih ht.2
    · intro rest hc
      exact absurd hc.symm ht.1

/-- `"${name[@]}"` is the elements of the array. -/
theorem allElements_eq (hname : isIdentifier name = true) (x : Expander)
    (st : ShellState) : allElements x name st = (st.getArrayValues name).map String.toList := by
  have hspan : '[' ∉ name.toList := fun hmem =>
    absurd (isNameByte_of_mem hname hmem) (by decide)
  have hmulti : partsHaveMultiField [.doubleQuoted [.parameter (name.toList ++ ['[', '@', ']'])]] =
      true := by
    simp [partsHaveMultiField, partHasMultiField, isMultiFieldParameterName,
      afterAllElements_append hspan]
  have hatoms : collectMultiAtoms x false 0
      [.doubleQuoted [.parameter (name.toList ++ ['[', '@', ']'])]] st =
      ([], [.fields ((st.getArrayValues name).map String.toList) true]) := by
    simp [collectMultiAtoms, collectMultiAtom, arrayMultiExpansion_all hname, maxExpandDepth]
  simp only [allElements, expandWordArgv, hmulti, if_true, expandWordMulti, hatoms,
    List.any_cons, MultiAtom.isFields, Bool.true_or]
  exact multiFields_fields _

theorem trim_parens (body : List Char) : trim ('(' :: body ++ [')']) = '(' :: body ++ [')'] := by
  have hfront : ('(' :: body ++ [')']).dropWhile isWhitespace = '(' :: body ++ [')'] := rfl
  have hback : ('(' :: body ++ [')']).reverse.dropWhile isWhitespace =
      ('(' :: body ++ [')']).reverse := by
    rw [List.reverse_append]
    rfl
  rw [trim, hfront, hback, List.reverse_reverse]

theorem compoundBody_parens (body : List Char) :
    compoundBody (String.ofList ('(' :: body ++ [')'])) = some body := by
  unfold compoundBody
  rw [String.toList_ofList, trim_parens]
  have hlast : ('(' :: body ++ [')']).getLast? = some ')' := List.getLast?_concat
  dsimp only
  rw [if_pos ⟨rfl, hlast⟩]
  simp

section

variable (h : Host W P) (x : Expander) (fs : W → Globs.Files) (depth : Nat) (r : Recs W P)
  {s : Runtime W} {words : List (List Char)}

theorem expandWord_literalValue (st : ShellState) :
    (h.shell x fs depth).expandWord (literalValue words) st =
      ([], String.ofList ('(' :: joined words ++ [')'])) := by
  have htilde : isTildeText ('(' :: joined words ++ [')']) = false := rfl
  simp only [Host.shell, literalValue, expandWord, expandParts, expandPart, List.append_nil,
    ShellState.after_nil, expandTildeText_of_inert (Or.inl htilde)]

/-- `execute_assignment` of a literal. -/
theorem executeAssignment_literal {target name : String} {isAppend : Bool}
    (hsplit : splitAssignmentName target = (name, isAppend)) (hname : isIdentifier name = true)
    (hro : s.state.isVarReadonly name = false) {st : ShellState}
    (hst : s.state.applyAll (assignCompoundArray name (joined words) isAppend) = some st) :
    ∃ t, executeAssignment (h.shell x fs depth) r ⟨target, some (literalValue words)⟩ s = .ok t ∧
      t.state = st := by
  have hnone : s.state.applyAll [] = some s.state := rfl
  rcases applyOps_eq_of_applyAll hnone with ⟨u, hu, hustate⟩
  have hvalue : expandAssignmentValue (h.shell x fs depth) r (some (literalValue words)) s =
      .ok (String.ofList ('(' :: joined words ++ [')']), u) := by
    have hresolve : resolveValue (h.shell x fs depth) r (some (literalValue words)) s =
        .ok (some (literalValue words), s) := rfl
    simp only [expandAssignmentValue, hresolve, bind, Except.bind, expandValue,
      expandWord_literalValue, hu, pure, Except.pure]
  have hops : (u.record (.assign target)).state.applyAll
      (assignCompoundArray name (joined words) isAppend) = some st := by
    rw [record_state, hustate]
    exact hst
  rcases applyOps_eq_of_applyAll hops with ⟨t, ht, htstate⟩
  refine ⟨t, ?_, htstate⟩
  simp only [executeAssignment, hsplit, hro, Bool.false_eq_true, if_false,
    parseArrayElement_of_identifier hname, hvalue, bind, Except.bind, assignValue,
    compoundBody_parens, ht]

/-- `RuntimeVmExecutor::assign` of a literal. -/
theorem vmAssign_literal (hquiet : s.state.quiet = true)
    (hro : s.state.isVarReadonly name = false) {st : ShellState}
    (hst : s.state.applyAll (assignCompoundArray name (joined words) false) = some st) :
    ∃ t, vmAssign (h.shell x fs depth) name (some (literalValue words)) s = .ok t ∧
      t.state.env = st.env := by
  have hexpand : ∃ s', vmExpandValue (h.shell x fs depth) (some (literalValue words)) s =
      .ok (false, String.ofList ('(' :: joined words ++ [')']), s') ∧ s'.state = s.state := by
    have hnone : s.enterChecked.state.applyAll [] = some s.state := rfl
    rcases applyOps_eq_of_applyAll hnone with ⟨u, hu, hustate⟩
    have hchecked : u.consumeErrors (h.shell x fs depth) = (false, u) :=
      pendingErrors_of_quiet (by rw [hustate]; exact hquiet)
    refine ⟨Runtime.leaveChecked s u, ?_, hustate⟩
    simp only [vmExpandValue, expandValue, expandWord_literalValue, hu, hchecked, bind,
      Except.bind, pure, Except.pure]
  rcases hexpand with ⟨s', hexpand, hstate⟩
  rw [← hstate] at hst
  rcases applyOps_eq_of_applyAll hst with ⟨t, ht, htstate⟩
  rw [← hstate] at hro
  refine ⟨t.setStatus 0, ?_, ?_⟩
  · simp only [vmAssign, hexpand, bind, Except.bind, Bool.false_eq_true, if_false, hro,
      vmAssignValue, compoundBody_parens, ht, pure, Except.pure]
  · rw [setStatus_env, htstate]

/-- The target of `name=` and of `name+=`. -/
def assignmentTarget (name : String) (isAppend : Bool) : String :=
  if isAppend then name ++ "+" else name

theorem isTarget_assignmentTarget (hname : isIdentifier name = true)
    (isAppend : Bool) : IsTarget (assignmentTarget name isAppend).toList := by
  cases isAppend with
  | false =>
    have htarget := isTarget_of_identifier hname (Or.inl rfl)
    rwa [List.append_nil] at htarget
  | true =>
    have htarget := isTarget_of_identifier hname (Or.inr rfl)
    rw [assignmentTarget, if_pos rfl, String.toList_append]
    exact htarget

theorem splitAssignmentName_target (hname : isIdentifier name = true) (isAppend : Bool) :
    splitAssignmentName (assignmentTarget name isAppend) = (name, isAppend) := by
  cases isAppend with
  | false => exact splitAssignmentName_of_identifier hname
  | true => simp [assignmentTarget, splitAssignmentName]

/-- Running a literal leads to what the scanner makes of its text. -/
theorem assigns_literal_iff (hname : isIdentifier name = true)
    (hro : s.state.isVarReadonly name = false) (hquiet : s.state.quiet = true) (isAppend : Bool)
    (hwords : ∀ v ∈ words, IsWritten v) {st : ShellState}
    (hst : s.state.applyAll (assignCompoundArray name (joined words) isAppend) = some st)
    {Q : ShellState → Prop} (hQ : ∀ st', st'.env = st.env → (Q st' ↔ Q st)) :
    Assigns (h.shell x fs depth) r s (literalText (assignmentTarget name isAppend) words) Q ↔
      words ≠ [] ∧ Q st := by
  have htarget := isTarget_assignmentTarget hname isAppend
  rcases executeAssignment_literal h x fs depth r (splitAssignmentName_target hname isAppend)
    hname hro hst with ⟨t, ht, htstate⟩
  constructor
  · rintro ⟨a, span, hparse, ⟨t', ht', hQ'⟩, -⟩
    by_cases hne : words = []
    · subst hne
      have htext := encode_literalText htarget []
      rcases parse_empty_literal htarget htext with ⟨e, he⟩
      simp [Host.shell, he, Except.mapError] at hparse
    · refine ⟨hne, ?_⟩
      rcases parse_literalText htarget hne hwords with ⟨span', hparse'⟩
      simp only [Host.shell, hparse', Except.mapError, Except.ok.injEq] at hparse
      have hcmd := commandProgram_inj hparse
      simp only [Command.assign.injEq, List.cons.injEq, and_true] at hcmd
      rw [← hcmd, ht] at ht'
      cases ht'
      rwa [htstate] at hQ'
  · rintro ⟨hne, hQst⟩
    rcases parse_literalText htarget hne hwords with ⟨span, hparse⟩
    refine ⟨_, span, ?_, ⟨t, ht, by rwa [htstate]⟩, ?_⟩
    · simp only [Host.shell, hparse, Except.mapError]
    · intro hvm
      cases isAppend with
      | true => simp [assignmentTarget, vmSupportedAssignmentName] at hvm
      | false =>
        rcases vmAssign_literal h x fs depth hquiet hro hst with ⟨u, hu, huenv⟩
        exact ⟨u, hu, (hQ _ huenv).mpr hQst⟩

/-! ## 3. The elements afterwards -/

variable {name : String} {es : List String}

theorem allElements_iff (hname : isIdentifier name = true) (st : ShellState)
    (values : List String) :
    allElements x name st = values.map String.toList ↔ st.getArrayValues name = values := by
  rw [allElements_eq hname]
  exact (List.map_injective_iff.mpr fun _ _ => String.toList_injective).eq_iff

theorem getArrayValues_of_env {st st' : ShellState} (henv : st'.env = st.env) :
    st'.getArrayValues name = st.getArrayValues name := by
  rw [ShellState.getArrayValues, henv, ShellState.getArrayValues]

theorem getArrayElement_of_env {st st' : ShellState} (henv : st'.env = st.env) (index : String) :
    st'.getArrayElement name index = st.getArrayElement name index := by
  rw [ShellState.getArrayElement, henv, ShellState.getArrayElement]

/-- The elements that the scanner finds. -/
theorem parseArrayElements_quoted (es : List String) :
    parseArrayElements (joined (es.map fun e => quoteText e.toList)) = es.filter (· ≠ "") := by
  have hmap : es.map (fun e => quoteText e.toList) = (es.map String.toList).map quoteText := by
    simp
  rw [hmap, parseArrayElements_joined, List.filter_map, List.map_map]
  have hid : String.ofList ∘ String.toList = id := funext fun e => String.ofList_toList
  rw [hid, List.map_id]
  congr 1
  funext e
  rw [Bool.eq_iff_iff]
  simp

/-- What a literal without pairs in mind stores. -/
theorem assignCompoundArray_values (hro : s.state.isVarReadonly name = false)
    (hlen : es.length ≤ 2 ^ 64) :
    ∃ st, s.state.applyAll
        (assignCompoundArray name (joined (es.map fun e => quoteText e.toList)) false) = some st ∧
      (es ≠ [] → (st.getArrayValues name = es ↔
        (∀ e ∈ es, e ≠ "") ∧ looksAssociative es = false)) := by
  have hassoc := isAssocArrayAssignment_joined es
  unfold assignCompoundArray
  dsimp only
  rw [if_neg Bool.false_ne_true]
  by_cases hpairs : isAssocArrayAssignment (joined (es.map fun e => quoteText e.toList))
      (parseArrayElements (joined (es.map fun e => quoteText e.toList))) = true
  · rw [if_pos hpairs]
    rcases assignAssocArray_hasArray hro (joined (es.map fun e => quoteText e.toList)) with
      ⟨st, hst, v, hget, -, hvalue⟩
    refine ⟨st, hst, fun hes => ?_⟩
    have hvalues : st.getArrayValues name =
        values (assocEntries (joined (es.map fun e => quoteText e.toList))) := by
      rw [ShellState.getArrayValues, hget, Option.map_some, Option.getD_some, hvalue,
        VarValue.elements]
    rw [hassoc, Bool.and_eq_true] at hpairs
    constructor
    · intro heq
      exact absurd (hvalues.symm.trans heq) (values_assocEntries_ne hes)
    · rintro ⟨-, hlooks⟩
      rw [hpairs.2] at hlooks
      cases hlooks
  · rw [if_neg hpairs, parseArrayElements_quoted]
    have hfilter := (List.length_filter_le (fun e : String => decide (e ≠ "")) es).trans hlen
    rcases assignIndexedArray_values hro hfilter with ⟨st, hst, hvalues⟩
    refine ⟨st, hst, fun hes => ?_⟩
    rw [hvalues, List.filter_eq_self]
    simp only [decide_eq_true_eq]
    constructor
    · intro hall
      refine ⟨hall, ?_⟩
      have hany : es.any (· ≠ "") = true := by
        rcases List.exists_mem_of_ne_nil es hes with ⟨e, he⟩
        exact List.any_eq_true.mpr ⟨e, he, decide_eq_true (hall e he)⟩
      rw [hassoc, hany, Bool.true_and, Bool.not_eq_true] at hpairs
      exact hpairs
    · exact And.left

/-- The visible entry of the name is an associative array. -/
def ShellState.isAssoc (st : ShellState) (name : String) : Bool :=
  (st.env.get name).any fun v => match v.value with
    | .assocArray _ => true
    | _ => false

/-- `append_array` leaves an associative array as it is. -/
theorem appendArray_values (hro : s.state.isVarReadonly name = false) (vs : List String) :
    (s.state.appendArray name vs).getArrayValues name =
      if s.state.isAssoc name then s.state.getArrayValues name
      else s.state.getArrayValues name ++ vs := by
  rw [ShellState.isVarReadonly_eq] at hro
  unfold ShellState.appendArray
  cases hget : s.state.env.get name with
  | none =>
    have hvalues := values_appendToIndexedArray [] vs
    simpa [ShellState.isAssoc, ShellState.getArrayValues, hget, VarValue.elements] using hvalues
  | some v =>
    rw [hget, Option.map_some, Option.getD_some] at hro
    simp only [hro, Bool.false_eq_true, if_false, ShellState.getArrayValues,
      ShellState.get_updateEntry, if_true, hget, Option.map_some, Option.getD_some,
      ShellState.isAssoc, Option.any_some]
    cases v.value with
    | scalar t =>
      by_cases ht : t = ""
      · simp [VarValue.appendElements, VarValue.elements, ht, values_appendToIndexedArray]
      · simp [VarValue.appendElements, VarValue.elements, ht, values_appendToIndexedArray]
    | indexedArray m =>
      simp [VarValue.appendElements, VarValue.elements, values_appendToIndexedArray]
    | assocArray m => simp [VarValue.appendElements, VarValue.elements]

theorem isWritten_quoted (es : List String) :
    ∀ v ∈ es.map fun e => quoteText e.toList, IsWritten v := by
  intro v hv
  rcases List.mem_map.mp hv with ⟨e, -, rfl⟩
  exact isWritten_quoteText _

section

variable (hname : isIdentifier name = true) (hro : s.state.isVarReadonly name = false)
  (hquiet : s.state.quiet = true)

include hname hro hquiet

theorem assigns_elements_iff (hlen : es.length ≤ 2 ^ 64) :
    Assigns (h.shell x fs depth) r s (literalText name (es.map fun e => quoteText e.toList))
        (fun st => allElements x name st = es.map String.toList) ↔
      es ≠ [] ∧ (∀ e ∈ es, e ≠ "") ∧ looksAssociative es = false := by
  rcases assignCompoundArray_values hro hlen with ⟨st, hst, hiff⟩
  have hrun := assigns_literal_iff h x fs depth r hname hro hquiet false (isWritten_quoted es) hst
    (Q := fun st => allElements x name st = es.map String.toList) (fun st' henv => by
      rw [allElements_iff _ hname, allElements_iff _ hname, getArrayValues_of_env henv])
  rw [ne_eq, List.map_eq_nil_iff, allElements_iff _ hname] at hrun
  exact hrun.trans (and_congr_right hiff)

theorem assigns_appended_iff :
    Assigns (h.shell x fs depth) r s
        (literalText (name ++ "+") (es.map fun e => quoteText e.toList))
        (fun st => allElements x name st = allElements x name s.state ++ es.map String.toList) ↔
      es ≠ [] ∧ (∀ e ∈ es, e ≠ "") ∧ s.state.isAssoc name = false := by
  have hst : s.state.applyAll
      (assignCompoundArray name (joined (es.map fun e => quoteText e.toList)) true) =
      some (s.state.appendArray name (es.filter (· ≠ ""))) := by
    rw [← parseArrayElements_quoted]
    rfl
  have hgoal : ∀ st, (allElements x name st = allElements x name s.state ++
      es.map String.toList) ↔ st.getArrayValues name = s.state.getArrayValues name ++ es := by
    intro st
    rw [allElements_eq hname x s.state, ← List.map_append, allElements_iff _ hname]
  have hrun := assigns_literal_iff h x fs depth r hname hro hquiet true (isWritten_quoted es) hst
    (Q := fun st => allElements x name st = allElements x name s.state ++
      es.map String.toList) (fun st' henv => by
      rw [hgoal, hgoal, getArrayValues_of_env henv])
  rw [ne_eq, List.map_eq_nil_iff, hgoal, appendArray_values hro] at hrun
  refine hrun.trans (and_congr_right fun hes => ?_)
  by_cases hassoc : s.state.isAssoc name = true
  · rw [if_pos hassoc]
    simp [hassoc, hes]
  · rw [if_neg hassoc, List.append_cancel_left_eq, List.filter_eq_self]
    simp [hassoc]

theorem assigns_pairs_iff {ps : List (String × String)} (hps : ∀ p ∈ ps, IsSimplePair p) :
    Assigns (h.shell x fs depth) r s (literalText name (ps.map pairText))
        (fun st => ∀ p ∈ ps, (st.getArrayElement name p.1).getD "" = p.2) ↔
      ps ≠ [] ∧ ∀ p ∈ ps, p.2 = "" := by
  have hpairs : ∀ v ∈ ps.map pairText, IsWritten v := by
    intro v hv
    rcases List.mem_map.mp hv with ⟨p, -, rfl⟩
    exact isWritten_pairText p
  have hgoal : ∀ st st' : ShellState, st'.env = st.env →
      ((∀ p ∈ ps, (st'.getArrayElement name p.1).getD "" = p.2) ↔
        ∀ p ∈ ps, (st.getArrayElement name p.1).getD "" = p.2) := by
    intro st st' henv
    simp only [getArrayElement_of_env henv]
  rcases assignCompoundArray_isArray hro (joined (ps.map pairText)) with ⟨st, hst, -⟩
  have hrun := assigns_literal_iff h x fs depth r hname hro hquiet false hpairs hst
    (Q := fun st => ∀ p ∈ ps, (st.getArrayElement name p.1).getD "" = p.2) (hgoal st)
  rw [ne_eq, List.map_eq_nil_iff] at hrun
  refine hrun.trans (and_congr_right fun hne => ?_)
  have hassign : assignCompoundArray name (joined (ps.map pairText)) false =
      assignAssocArray name (joined (ps.map pairText)) := by
    simp [assignCompoundArray, isAssocArrayAssignment_pairs hne]
  rcases assignAssocArray_hasArray hro (joined (ps.map pairText)) with
    ⟨st', hst', v, hget, -, hvalue⟩
  rw [hassign, hst'] at hst
  cases hst
  rw [← entries_iff_empty hps]
  simp only [ShellState.getArrayElement, hget, Option.bind_some, hvalue, VarValue.element]

/-- **An array literal keeps its elements exactly when there are some, none of them is empty
    and they do not look like pairs; appending keeps them when there are some, none is empty
    and the array is not associative; and of pairs with quoted keys the values come back
    only when they are all empty**, for every state in which the name can be written. -/
theorem array_literal_keeps_iff (hlen : es.length ≤ 2 ^ 64) (ps : List (String × String)) :
    (Assigns (h.shell x fs depth) r s (literalText name (es.map fun e => quoteText e.toList))
        (fun st => allElements x name st = es.map String.toList) ↔
      es ≠ [] ∧ (∀ e ∈ es, e ≠ "") ∧ looksAssociative es = false) ∧
    (Assigns (h.shell x fs depth) r s
        (literalText (name ++ "+") (es.map fun e => quoteText e.toList))
        (fun st => allElements x name st = allElements x name s.state ++ es.map String.toList) ↔
      es ≠ [] ∧ (∀ e ∈ es, e ≠ "") ∧ s.state.isAssoc name = false) ∧
    ((∀ p ∈ ps, IsSimplePair p) →
      (Assigns (h.shell x fs depth) r s (literalText name (ps.map pairText))
          (fun st => ∀ p ∈ ps, (st.getArrayElement name p.1).getD "" = p.2) ↔
        ps ≠ [] ∧ ∀ p ∈ ps, p.2 = "")) :=
  ⟨assigns_elements_iff h x fs depth r hname hro hquiet hlen,
    assigns_appended_iff h x fs depth r hname hro hquiet,
    fun hps => assigns_pairs_iff h x fs depth r hname hro hquiet hps⟩

end

end

/-- `a=('x y' '(z)')`, `a+=('x y' '(z)')` and `a=(['k']='')`. -/
theorem array_literal_keeps_words :
    Assigns bareShell outOfFuel .bare (literalText "a" (["x y", "(z)"].map (quoteText ·.toList)))
      (fun st => allElements .plain "a" st = ["x y", "(z)"].map String.toList) ∧
    Assigns bareShell outOfFuel .bare
      (literalText "a+" (["x y", "(z)"].map (quoteText ·.toList)))
      (fun st => allElements .plain "a" st = ["x y", "(z)"].map String.toList) ∧
    Assigns bareShell outOfFuel .bare (literalText "a" ([("k", "")].map pairText))
      (fun st => ∀ p ∈ [("k", "")], (st.getArrayElement "a" p.1).getD "" = p.2) := by
  have hkeeps := @array_literal_keeps_iff Unit Unit
    (Host.bare (fun _ => .error "") basicBuiltins) .plain (fun _ => noFiles) 0 outOfFuel .bare
    "a" ["x y", "(z)"] (by decide) (by decide) (by decide) (by decide) [("k", "")]
  refine ⟨hkeeps.1.mpr (by decide), hkeeps.2.1.mpr (by decide), (hkeeps.2.2 ?_).mpr (by decide)⟩
  intro p hp
  rcases List.mem_singleton.mp hp with rfl
  exact ⟨by decide, by decide⟩

/-- `a=('')` stores nothing, and the value of `a=(['k']='v')` is not found under `k`. -/
theorem array_literal_loses_elements :
    ¬ Assigns bareShell outOfFuel .bare (literalText "a" ([""].map (quoteText ·.toList)))
      (fun st => allElements .plain "a" st = [""].map String.toList) ∧
    ¬ Assigns bareShell outOfFuel .bare (literalText "a" ([("k", "v")].map pairText))
      (fun st => ∀ p ∈ [("k", "v")], (st.getArrayElement "a" p.1).getD "" = p.2) := by
  constructor
  · intro hrun
    have hcond := (assigns_elements_iff (Host.bare (fun _ => .error "") basicBuiltins) .plain
      (fun _ => noFiles) 0 outOfFuel (by decide) (by decide) (by decide) (by decide)).mp hrun
    revert hcond
    decide
  · intro hrun
    have hsimple : ∀ p ∈ [("k", "v")], IsSimplePair p := by
      intro p hp
      rcases List.mem_singleton.mp hp with rfl
      exact ⟨by decide, by decide⟩
    have hcond := (assigns_pairs_iff (Host.bare (fun _ => .error "") basicBuiltins) .plain
      (fun _ => noFiles) 0 outOfFuel (by decide) (by decide) (by decide) hsimple).mp hrun
    revert hcond
    decide

end Wasmsh

import Mathlib.Data.Bool.AllAny
import Wasmsh.CommandLine
import Wasmsh.Expansion
import Wasmsh.Vm

/-!
# Arguments that are written into a text and read again

Several commands rebuild a command line out of arguments they already have and hand the text
back to the parser.  An argument survives this when it is written without a special byte,
or between single quotes, and when braces, a tilde and pathname expansion leave its text
alone.  `parses_and_expands` puts the two halves together: the text is one simple command,
and its words expand to the arguments.
-/

open Wasmsh.Parser

namespace Wasmsh

open Braces Globs Expand

variable {t : List Char}

/-! ## 1. Words that expand to one argument -/

section

variable (x : Expander) (fs : Files) (depth : Nat) (s : ShellState)

/-- The word holds the text literally and expands to one field, which braces and pathname
    expansion leave alone, and its expansion writes nothing; the VM, which expands each word
    of a builtin by itself, gets the same. -/
def ExpandsTo (w : Word) (t : List Char) : Prop :=
  (Ir.literalWordText w = some (String.ofList t) ∧ expandWord x w s = ([], t)) ∧
    ∃ m tagged, expandWordArgv x w s = ([], [m]) ∧ braceWords m = [tagged] ∧ tagged.text = t ∧
      expandTagged fs (.of s) s.cwd.toList depth tagged = [t]

/-- Each word expands to its own argument. -/
def ExpandTo : List Word → List (List Char) → Prop := List.Forall₂ (ExpandsTo x fs depth s)

end

section

variable {x : Expander} {fs : Files} {depth : Nat} {s : ShellState}

theorem ShellState.after_nil (s : ShellState) : s.after [] = s := rfl

theorem expandWordsArgv_of_expandTo {ws : List Word} {ts : List (List Char)}
    (h : ExpandTo x fs depth s ws ts) :
    ∃ ms tagged, expandWordsArgv x ws s = ([], ms) ∧ ms.length = ws.length ∧
      ms.flatMap braceWords = tagged ∧ tagged.map (·.text) = ts ∧
      tagged.flatMap (expandTagged fs (.of s) s.cwd.toList depth) = ts := by
  induction h with
  | nil => exact ⟨[], [], rfl, rfl, rfl, rfl, rfl⟩
  | @cons w t ws ts hw _ ih =>
    rcases hw with ⟨-, m, tagged, hm, hbrace, htext, hglob⟩
    rcases ih with ⟨ms, tags, hms, hlen, hbraces, htexts, hglobs⟩
    refine ⟨m :: ms, tagged :: tags, ?_, ?_, ?_, ?_, ?_⟩
    · simp only [expandWordsArgv, hm, ShellState.after_nil, hms, List.nil_append,
        List.cons_append]
    · simp only [List.length_cons, hlen]
    · simp only [List.flatMap_cons, hbrace, hbraces, List.cons_append, List.nil_append]
    · simp only [List.map_cons, htext, htexts]
    · simp only [List.flatMap_cons, hglob, hglobs, List.cons_append, List.nil_append]

/-- Words that expand one by one expand to the arguments, as long as there are not more of
    them than pathname expansion lets through. -/
theorem expandArgv_of_expandTo {ws : List Word} {ts : List (List Char)} (hws : ws ≠ [])
    (h : ExpandTo x fs depth s ws ts)
    (hcount : (GlobOptions.of s).noglob = true ∨ ts.length ≤ maxGlobResults) :
    expandArgv x fs depth ws s = ([], some (ts.map String.ofList)) := by
  rcases expandWordsArgv_of_expandTo h with ⟨ms, tagged, hms, hlen, hbraces, htexts, hglobs⟩
  have hne : ms.isEmpty = false := by
    cases ms with
    | nil =>
      cases ws with
      | nil => exact absurd rfl hws
      | cons w ws => cases hlen
    | cons m ms => rfl
  have hargv : expandGlobsTagged fs (.of s) s.cwd.toList depth tagged = ts := by
    unfold expandGlobsTagged
    by_cases hnoglob : (GlobOptions.of s).noglob = true
    · rw [if_pos hnoglob, htexts]
    · rw [if_neg hnoglob, hglobs]
      exact List.take_of_length_le (hcount.resolve_left hnoglob)
  simp only [expandArgv, hms, ShellState.after_nil, hbraces, hargv, hne, Bool.false_eq_true,
    if_false]

end

/-! ## 2. Arguments written as they are -/

/-- A text that is one word when it is written as it is. -/
structure IsPlainText (t : List Char) : Prop where
  ne_nil : t ≠ []
  ascii : ∀ c ∈ t, c.toNat < 0x80
  plain : ∀ c ∈ t, isPlainByte c = true
  no_comment : t.head? ≠ some '#'
  no_open : t ≠ ['[', '[']
  no_close : t ≠ [']', ']']

theorem isPlainText_iff : IsPlainText t ↔
    t ≠ [] ∧ (t.all fun c => decide (c.toNat < 0x80)) = true ∧ t.all isPlainByte = true ∧
      t.head? ≠ some '#' ∧ t ≠ ['[', '['] ∧ t ≠ [']', ']'] := by
  rw [List.all_iff_forall_prop, List.all_eq_true]
  exact ⟨fun ⟨h₁, h₂, h₃, h₄, h₅, h₆⟩ => ⟨h₁, h₂, h₃, h₄, h₅, h₆⟩,
    fun ⟨h₁, h₂, h₃, h₄, h₅, h₆⟩ => ⟨h₁, h₂, h₃, h₄, h₅, h₆⟩⟩

instance (t : List Char) : Decidable (IsPlainText t) := decidable_of_iff' _ isPlainText_iff

/-- The pieces of a text that is written as it is. -/
def plainPieces (t : List Char) : List Piece := t.map .plain

theorem bytesOf_plainPieces (t : List Char) : bytesOf (plainPieces t) = t := by
  induction t with
  | nil => rfl
  | cons c t ih =>
    have hcons : bytesOf (plainPieces (c :: t)) = c :: bytesOf (plainPieces t) := rfl
    rw [hcons, ih]

theorem IsPlainText.isWord (h : IsPlainText t) : IsWord (plainPieces t) where
  wellFormed := by
    intro p hp
    rcases List.mem_map.mp hp with ⟨c, hc, rfl⟩
    exact h.plain c hc
  ne_nil := by simpa [plainPieces] using h.ne_nil
  no_comment := by
    intro hhead
    cases t with
    | nil => cases hhead
    | cons c t =>
      injection hhead with hhead
      injection hhead with hc
      exact h.no_comment (by rw [hc]; rfl)
  no_open := by rw [bytesOf_plainPieces]; exact h.no_open
  no_close := by rw [bytesOf_plainPieces]; exact h.no_close

theorem partsFrom_plainPieces (lit t : List Char) :
    partsFrom lit (plainPieces t) = WordParser.flush (lit ++ t) := by
  induction t generalizing lit with
  | nil => simp [plainPieces, partsFrom]
  | cons c t ih =>
    have hcons : partsFrom lit (plainPieces (c :: t)) = partsFrom (lit ++ [c]) (plainPieces t) :=
      rfl
    rw [hcons, ih, List.append_assoc, List.singleton_append]

theorem wordOf_plainPieces (h : IsPlainText t) :
    wordOf (bytesOf (plainPieces t)) = ⟨[.literal t]⟩ := by
  rw [wordOf, parseWordParts_bytesOf h.isWord.wellFormed, partsFrom_plainPieces, List.nil_append,
    WordParser.flush, if_neg h.ne_nil]
  rfl

/-- Braces, a tilde and pathname expansion leave the text alone. -/
structure IsInert (fs : Files) (depth : Nat) (s : ShellState) (t : List Char) : Prop where
  braces : expandBraces t = [t]
  tilde : isTildeText t = false ∨ s.getVar "HOME" = none
  pathname : expandGlobArg fs (.of s) s.cwd.toList depth t = [t]

section

variable {x : Expander} {fs : Files} {depth : Nat} {s : ShellState} {t : List Char}

theorem hasExtglobPattern_of_not_mem (h : '(' ∉ t) : hasExtglobPattern t = false := by
  induction t with
  | nil => rfl
  | cons c t ih =>
    simp only [List.mem_cons, not_or] at h
    cases t with
    | nil => simp [hasExtglobPattern]
    | cons d t =>
      have hd : d ≠ '(' := by
        rintro rfl
        exact h.2 (.head _)
      rw [hasExtglobPattern.eq_2 _ _ fun r heq => hd (List.cons.inj heq).1]
      exact ih h.2

/-- A text without a character that starts an expansion. -/
theorem isInert_of_not_mem (h : ∀ c ∈ ['{', '~', '*', '?', '[', '('], c ∉ t) :
    IsInert fs depth s t where
  braces := expandBraces_of_not_mem (h '{' (by decide))
  tilde := by
    refine Or.inl ?_
    have htilde : '~' ∉ t := h '~' (by decide)
    cases t with
    | nil => rfl
    | cons c t =>
      have hc : c ≠ '~' := by
        rintro rfl
        exact htilde (.head _)
      simp [isTildeText, hc]
  pathname := by
    have hglob : isGlobPattern (.of s) t = false := by
      simp [isGlobPattern, h '*' (by decide), h '?' (by decide), h '[' (by decide),
        hasExtglobPattern_of_not_mem (h '(' (by decide))]
    rw [expandGlobArg, hglob]
    rfl

theorem Masked.wasQuoted_ofText_false (t : List Char) :
    (Masked.ofText false t).wasQuoted = false := by
  simp [Masked.ofText, Masked.wasQuoted]

theorem expandTilde_of_inert {m : Masked}
    (h : isTildeText m.text = false ∨ s.getVar "HOME" = none) : expandTilde m s = m := by
  rcases h with h | h
  · simp [expandTilde, h]
  · simp [expandTilde, h]

theorem expandTildeText_of_inert (h : isTildeText t = false ∨ s.getVar "HOME" = none) :
    expandTildeText t s = t := by
  rcases h with h | h
  · simp [expandTildeText, h]
  · simp [expandTildeText, h]

/-- A word without a parameter of several fields. -/
theorem expandWordArgv_single {w : Word} (hw : partsHaveMultiField w.parts = false) :
    expandWordArgv x w s = ((expandWordMasked x w s).1, [(expandWordMasked x w s).2]) := by
  simp [expandWordArgv, hw]

/-- A tagged word without quoted bytes. -/
theorem expandTagged_unquoted {o : GlobOptions} {cwd : List Char} :
    expandTagged fs o cwd depth ⟨t, false, List.replicate (Utf8.encode t).length false⟩ =
      expandGlobArg fs o cwd depth t := by
  simp [expandTagged]

theorem expandPartsMasked_literal (t : List Char) :
    expandPartsMasked x false 0 [.literal t] s = ([], .ofText false t) := by
  simp [expandPartsMasked, expandPartMasked, maxExpandDepth]

/-- An argument that is written as it is and that nothing is left of to expand. -/
theorem expandsTo_plain (ht : IsPlainText t) (hinert : IsInert fs depth s t) :
    ExpandsTo x fs depth s (wordOf (bytesOf (plainPieces t))) t := by
  rw [wordOf_plainPieces ht]
  refine ⟨⟨?_, ?_⟩, ?_⟩
  · simp [Ir.literalWordText, Ir.literalPartText.literalPartsText, Ir.literalPartText]
  · simp [expandWord, expandParts, expandPart, ShellState.after_nil,
      expandTildeText_of_inert hinert.tilde]
  · refine ⟨.ofText false t, ⟨t, false, List.replicate (Utf8.encode t).length false⟩, ?_, ?_, rfl,
      ?_⟩
    · have htilde : expandTilde (.ofText false t) s = .ofText false t :=
        expandTilde_of_inert (by rw [Masked.text_ofText]; exact hinert.tilde)
      rw [expandWordArgv_single rfl]
      simp only [expandWordMasked, expandPartsMasked_literal, ShellState.after_nil, htilde]
    · simp only [braceWords, Masked.wasQuoted_ofText_false, Bool.false_eq_true, if_false,
        Masked.text_ofText, hinert.braces, List.map_cons, List.map_nil]
    · rw [expandTagged_unquoted, hinert.pathname]

end

/-! ## 3. Arguments written between quotes -/

/-- `'...'` around the text, with `'\''` for a quote in it. -/
def quoteText (t : List Char) : List Char :=
  '\'' :: t.flatMap (fun c => if c = '\'' then ['\'', '\\', '\'', '\''] else [c]) ++ ['\'']

/-- The pieces of a quoted text, `u` being what the open quotes hold so far. -/
def quotedPieces (u : List Char) : List Char → List Piece
  | [] => [.quoted (Utf8.encode u)]
  | c :: t =>
    if c = '\'' then .quoted (Utf8.encode u) :: .quote :: quotedPieces [] t
    else quotedPieces (u ++ [c]) t

theorem bytesOf_quotedPieces (u t : List Char) :
    bytesOf (quotedPieces u t) = '\'' :: Utf8.encode u ++
      Utf8.encode (t.flatMap fun c => if c = '\'' then ['\'', '\\', '\'', '\''] else [c]) ++
        ['\''] := by
  induction t generalizing u with
  | nil => simp [quotedPieces, Piece.bytes]
  | cons c t ih =>
    by_cases hc : c = '\''
    · subst hc
      simp [quotedPieces, Piece.bytes, ih, Utf8.encodeChar]
    · simp [quotedPieces, hc, ih]

theorem encode_quoteText (t : List Char) :
    Utf8.encode (quoteText t) = bytesOf (quotedPieces [] t) := by
  rw [bytesOf_quotedPieces]
  simp [quoteText, Utf8.encodeChar]

theorem quotedPieces_wellFormed (u t : List Char) (hu : '\'' ∉ u) :
    ∀ p ∈ quotedPieces u t, p.WellFormed := by
  have henc : ∀ v, '\'' ∉ v → '\'' ∉ Utf8.encode v := fun v hv hmem =>
    hv (Utf8.mem_of_mem_encode (by decide) hmem)
  induction t generalizing u with
  | nil =>
    intro p hp
    rcases List.mem_singleton.mp hp with rfl
    exact henc u hu
  | cons c t ih =>
    intro p hp
    by_cases hc : c = '\''
    · rw [quotedPieces, if_pos hc] at hp
      simp only [List.mem_cons] at hp
      rcases hp with rfl | rfl | hp
      · exact henc u hu
      · trivial
      · exact ih [] (by simp) p hp
    · rw [quotedPieces, if_neg hc] at hp
      refine ih (u ++ [c]) ?_ p hp
      simp only [List.mem_append, List.mem_singleton, not_or]
      exact ⟨hu, Ne.symm hc⟩

theorem head_quotedPieces (u t : List Char) : ∃ v ps, quotedPieces u t = .quoted v :: ps := by
  induction t generalizing u with
  | nil => exact ⟨_, [], rfl⟩
  | cons c t ih =>
    by_cases hc : c = '\''
    · exact ⟨_, _, by rw [quotedPieces, if_pos hc]⟩
    · rw [quotedPieces, if_neg hc]
      exact ih _

theorem isWord_quotedPieces (t : List Char) : IsWord (quotedPieces [] t) := by
  rcases head_quotedPieces [] t with ⟨v, ps, hhead⟩
  refine ⟨quotedPieces_wellFormed [] t (by simp), ?_, ?_, ?_, ?_⟩
  all_goals rw [hhead]; simp [Piece.bytes]

/-- Every character is quoted, but the quotes themselves. -/
def quotedMask (t : List Char) : Masked := t.map fun c => (c, c != '\'')

theorem text_quotedMask (t : List Char) : (quotedMask t).text = t := by
  simp [quotedMask, Masked.text, Function.comp_def]

section

variable {x : Expander} {fs : Files} {depth : Nat} {s : ShellState} {t : List Char}

theorem expandPartsMasked_flush (lit : List Char) (ps : List WordPart) :
    expandPartsMasked x false 0 (WordParser.flush lit ++ ps) s =
      ((expandPartsMasked x false 0 ps s).1,
        .ofText false lit ++ (expandPartsMasked x false 0 ps s).2) := by
  by_cases hlit : lit = []
  · simp [WordParser.flush, hlit, Masked.ofText]
  · simp [WordParser.flush, hlit, expandPartsMasked, expandPartMasked, maxExpandDepth,
      ShellState.after_nil]

theorem decodeParts_flush (lit : List Char) (ps : List WordPart) :
    decodeParts (WordParser.flush lit ++ ps) = WordParser.flush lit ++ decodeParts ps := by
  by_cases hlit : lit = []
  · simp [WordParser.flush, hlit]
  · simp [WordParser.flush, hlit, decodeParts, decodePart]

/-- The parts of a quoted text expand to it. -/
theorem expandPartsMasked_quotedPieces (lit u t : List Char) :
    expandPartsMasked x false 0 (decodeParts (partsFrom lit (quotedPieces u t))) s =
      ([], .ofText false lit ++ .ofText true u ++ quotedMask t) := by
  induction t generalizing lit u with
  | nil =>
    simp only [quotedPieces, partsFrom, decodeParts_flush, expandPartsMasked_flush]
    simp [decodeParts, decodePart, Utf8.decode_encode, expandPartsMasked, expandPartMasked,
      maxExpandDepth, quotedMask, WordParser.flush, Masked.ofText]
  | cons c t ih =>
    by_cases hc : c = '\''
    · subst hc
      simp only [quotedPieces, if_true, partsFrom, List.nil_append, decodeParts_flush,
        expandPartsMasked_flush, decodeParts, decodePart, Utf8.decode_encode, expandPartsMasked]
      simp [expandPartMasked, maxExpandDepth, quotedMask, Masked.ofText, ih,
        ShellState.after_nil]
    · simp only [quotedPieces, if_neg hc, ih]
      simp [quotedMask, Masked.ofText, hc]

theorem expandParts_flush (lit : List Char) (ps : List WordPart) :
    expandParts x (WordParser.flush lit ++ ps) s =
      ((expandParts x ps s).1, lit ++ (expandParts x ps s).2) := by
  by_cases hlit : lit = []
  · simp [WordParser.flush, hlit]
  · simp [WordParser.flush, hlit, expandParts, expandPart, ShellState.after_nil]

theorem literalPartsText_quotedPieces (lit u t : List Char) :
    Ir.literalPartText.literalPartsText (decodeParts (partsFrom lit (quotedPieces u t))) =
      some (lit ++ u ++ t) := by
  have hflush : ∀ (lit : List Char) (ps : List WordPart),
      Ir.literalPartText.literalPartsText (WordParser.flush lit ++ ps) =
        (Ir.literalPartText.literalPartsText ps).map (lit ++ ·) := by
    intro lit ps
    by_cases hlit : lit = []
    · simp [WordParser.flush, hlit]
    · rw [WordParser.flush, if_neg hlit, List.singleton_append,
        Ir.literalPartText.literalPartsText, Ir.literalPartText]
      cases Ir.literalPartText.literalPartsText ps <;> rfl
  induction t generalizing lit u with
  | nil =>
    simp only [quotedPieces, partsFrom, decodeParts_flush, hflush]
    simp [decodeParts, decodePart, Utf8.decode_encode, Ir.literalPartText.literalPartsText,
      Ir.literalPartText, WordParser.flush]
  | cons c t ih =>
    by_cases hc : c = '\''
    · subst hc
      simp only [quotedPieces, if_true, partsFrom, List.nil_append, decodeParts_flush, hflush,
        decodeParts, decodePart, Utf8.decode_encode, Ir.literalPartText.literalPartsText, ih]
      simp [Ir.literalPartText]
    · simp only [quotedPieces, if_neg hc, ih]
      simp

theorem expandParts_quotedPieces (lit u t : List Char) :
    expandParts x (decodeParts (partsFrom lit (quotedPieces u t))) s = ([], lit ++ u ++ t) := by
  induction t generalizing lit u with
  | nil =>
    simp only [quotedPieces, partsFrom, decodeParts_flush, expandParts_flush]
    simp [decodeParts, decodePart, Utf8.decode_encode, expandParts, expandPart, WordParser.flush]
  | cons c t ih =>
    by_cases hc : c = '\''
    · subst hc
      simp only [quotedPieces, if_true, partsFrom, List.nil_append, decodeParts_flush,
        expandParts_flush, decodeParts, decodePart, Utf8.decode_encode, expandParts]
      simp [expandPart, ih, ShellState.after_nil]
    · simp only [quotedPieces, if_neg hc, ih]
      simp

theorem partsHaveMultiField_partsFrom (lit : List Char) (ps : List Piece) :
    partsHaveMultiField (decodeParts (partsFrom lit ps)) = false := by
  have hflush : ∀ lit qs, partsHaveMultiField (WordParser.flush lit ++ qs) =
      partsHaveMultiField qs := by
    intro lit qs
    by_cases hlit : lit = []
    · simp [WordParser.flush, hlit]
    · simp [WordParser.flush, hlit, partsHaveMultiField, partHasMultiField]
  induction ps generalizing lit with
  | nil =>
    rw [partsFrom, ← List.append_nil (WordParser.flush lit), decodeParts_flush, hflush]
    rfl
  | cons p ps ih =>
    cases p with
    | plain b => exact ih _
    | quoted t =>
      rw [partsFrom, decodeParts_flush, hflush]
      simp [decodeParts, decodePart, partsHaveMultiField, partHasMultiField, ih]
    | quote => exact ih _

theorem length_byteMask (m : Masked) : m.byteMask.length = (Utf8.encode m.text).length := by
  induction m with
  | nil => rfl
  | cons e m ih =>
    simp only [Masked.byteMask, Masked.text, List.flatMap_cons, List.length_append,
      List.length_replicate, List.map_cons, Utf8.encode_cons] at ih ⊢
    rw [ih]

theorem any_byteMask (m : Masked) : m.byteMask.any id = m.wasQuoted := by
  induction m with
  | nil => rfl
  | cons e m ih =>
    have hany : (List.replicate (Utf8.encodeChar e.1).length e.2).any id = e.2 := by
      simp [List.any_replicate, Utf8.encodeChar_ne_nil]
    simp only [Masked.byteMask, Masked.wasQuoted, List.flatMap_cons, List.any_append,
      List.any_cons] at ih ⊢
    rw [hany, ih]

theorem activeGlob_append {bytes bytes' : List Char} {mask mask' : List Bool}
    (hlen : bytes.length = mask.length) :
    activeGlob (bytes ++ bytes') (mask ++ mask') =
      (activeGlob bytes mask || activeGlob bytes' mask') := by
  induction bytes generalizing mask with
  | nil =>
    cases mask with
    | nil => rfl
    | cons q mask => cases hlen
  | cons b bytes ih =>
    cases mask with
    | nil => cases hlen
    | cons q mask =>
      simp only [List.cons_append, activeGlob, List.headD_cons, List.tail_cons,
        ih (Nat.succ.inj hlen), Bool.or_assoc]

theorem activeGlob_replicate_true (bytes : List Char) (n : Nat) (hn : bytes.length ≤ n) :
    activeGlob bytes (List.replicate n true) = false := by
  induction bytes generalizing n with
  | nil => rfl
  | cons b bytes ih =>
    rcases n with _ | n
    · cases hn
    simp [activeGlob, List.replicate_succ, ih n (Nat.le_of_succ_le_succ hn)]

/-- No metacharacter of a quoted text is active. -/
theorem activeGlob_quotedMask (t : List Char) :
    activeGlob (Utf8.encode t) (quotedMask t).byteMask = false := by
  induction t with
  | nil => rfl
  | cons c t ih =>
    have hcons : (quotedMask (c :: t)).byteMask =
        List.replicate (Utf8.encodeChar c).length (c != '\'') ++ (quotedMask t).byteMask := rfl
    rw [hcons, Utf8.encode_cons, activeGlob_append (by simp), ih, Bool.or_false]
    by_cases hc : c = '\''
    · subst hc
      rfl
    · have hflag : (c != '\'') = true := by simpa using hc
      rw [hflag]
      exact activeGlob_replicate_true _ _ (Nat.le_refl _)

theorem not_mem_of_wasQuoted_eq_false (h : (quotedMask t).wasQuoted = false) {c : Char}
    (hc : c ≠ '\'') : c ∉ t := by
  intro hmem
  have htrue : (quotedMask t).wasQuoted = true := by
    simp only [Masked.wasQuoted, quotedMask, List.any_map, List.any_eq_true]
    exact ⟨c, hmem, by simpa using hc⟩
  rw [htrue] at h
  cases h

/-- A quoted argument comes back as it was, unless its tilde is taken for one. -/
theorem expandsTo_quoted (htilde : isTildeText t = false ∨ s.getVar "HOME" = none) :
    ExpandsTo x fs depth s (wordOf (bytesOf (quotedPieces [] t))) t := by
  have hparts : (wordOf (bytesOf (quotedPieces [] t))).parts =
      decodeParts (partsFrom [] (quotedPieces [] t)) := by
    rw [wordOf, parseWordParts_bytesOf (isWord_quotedPieces t).wellFormed]
  have hmasked : expandWordMasked x (wordOf (bytesOf (quotedPieces [] t))) s =
      ([], quotedMask t) := by
    have hnone : expandTilde (quotedMask t) s = quotedMask t :=
      expandTilde_of_inert (by rw [text_quotedMask]; exact htilde)
    simp only [expandWordMasked, hparts, expandPartsMasked_quotedPieces, Masked.ofText,
      List.map_nil, List.nil_append, ShellState.after_nil, hnone]
  refine ⟨⟨?_, ?_⟩, ?_⟩
  · rw [Ir.literalWordText, hparts, literalPartsText_quotedPieces]
    rfl
  · simp only [expandWord, hparts, expandParts_quotedPieces, List.nil_append,
      ShellState.after_nil, expandTildeText_of_inert htilde]
  · have hsingle := expandWordArgv_single (x := x) (s := s)
      (w := wordOf (bytesOf (quotedPieces [] t))) (by rw [hparts, partsHaveMultiField_partsFrom])
    rw [hmasked] at hsingle
    by_cases hquoted : (quotedMask t).wasQuoted = true
    · refine ⟨quotedMask t, ⟨t, true, (quotedMask t).byteMask⟩, hsingle, ?_, rfl, ?_⟩
      · rw [braceWords, if_pos hquoted, text_quotedMask]
      · have hlen : (quotedMask t).byteMask.length = (Utf8.encode t).length := by
          rw [length_byteMask, text_quotedMask]
        simp only [expandTagged, hlen, ne_eq, not_true_eq_false, if_false, any_byteMask, hquoted,
          if_true, expandMaskedGlobArg, activeGlob_quotedMask, Bool.not_false]
    · rw [Bool.not_eq_true] at hquoted
      have hnot : ∀ c, c ≠ '\'' → c ∉ t := fun c hc => not_mem_of_wasQuoted_eq_false hquoted hc
      refine ⟨quotedMask t, ⟨t, false, List.replicate (Utf8.encode t).length false⟩, hsingle, ?_,
        rfl, ?_⟩
      · rw [braceWords, hquoted, text_quotedMask,
          expandBraces_of_not_mem (hnot '{' (by decide))]
        rfl
      · have hinert : IsInert fs depth s t := isInert_of_not_mem fun c hc => hnot c (by
          rintro rfl
          exact absurd hc (by decide))
        rw [expandTagged_unquoted, hinert.pathname]

end

/-! ## 4. A line of arguments -/

/-- The text `u`, written into a line, comes back as the argument `t`. -/
def ReadsBack (x : Expander) (fs : Files) (depth : Nat) (s : ShellState) (u t : List Char) :
    Prop :=
  ∃ ps, IsWord ps ∧ Utf8.encode u = bytesOf ps ∧
    ExpandsTo x fs depth s (wordOf (bytesOf ps)) t

section

variable {x : Expander} {fs : Files} {depth : Nat} {s : ShellState}

theorem readsBack_plain (ht : IsPlainText t) (hinert : IsInert fs depth s t) :
    ReadsBack x fs depth s t t :=
  ⟨plainPieces t, ht.isWord, by rw [bytesOf_plainPieces, Utf8.encode_of_ascii ht.ascii],
    expandsTo_plain ht hinert⟩

theorem readsBack_quoted (htilde : isTildeText t = false ∨ s.getVar "HOME" = none) :
    ReadsBack x fs depth s (quoteText t) t :=
  ⟨quotedPieces [] t, isWord_quotedPieces t, encode_quoteText t, expandsTo_quoted htilde⟩

theorem intercalate_blank (u : List Char) (us : List (List Char)) :
    [' '].intercalate (u :: us) = u ++ us.flatMap (' ' :: ·) := by
  induction us generalizing u with
  | nil => simp
  | cons v us ih =>
    rw [List.intercalate_cons_cons, ih v]
    simp

theorem encode_intercalate {u : List Char} {us : List (List Char)} {w : List Piece}
    {ws : List (List Piece)} (hu : Utf8.encode u = bytesOf w)
    (hus : List.Forall₂ (fun u ps => Utf8.encode u = bytesOf ps) us ws) :
    Utf8.encode ([' '].intercalate (u :: us)) = lineBytes w ws := by
  have htail : ∀ {us : List (List Char)} {ws : List (List Piece)},
      List.Forall₂ (fun u ps => Utf8.encode u = bytesOf ps) us ws →
        Utf8.encode (us.flatMap (' ' :: ·)) = tailBytes ws := by
    intro us ws h
    induction h with
    | nil => rfl
    | cons h _ ih => simp [tailBytes, Utf8.encodeChar, h, ih] at ih ⊢
  rw [intercalate_blank, Utf8.encode_append, hu, htail hus, lineBytes]

/-- A line of texts that are read back is one simple command, and its words expand to what
    the texts stand for. -/
theorem parses_and_expands {u t : List Char} {us ts : List (List Char)}
    (hu : ReadsBack x fs depth s u t) (hus : List.Forall₂ (ReadsBack x fs depth s) us ts)
    (hstart : startsCommand (Utf8.encode u) = true)
    (hcount : (GlobOptions.of s).noglob = true ∨ (t :: ts).length ≤ maxGlobResults) :
    ∃ ws span, parse (String.ofList ([' '].intercalate (u :: us))) =
        .ok (simpleProgram ws span) ∧
      expandArgv x fs depth ws s = ([], some ((t :: ts).map String.ofList)) ∧
      ws.map (expandWord x · s) = (t :: ts).map (fun t => ([], t)) ∧
      ws.map Ir.literalWordText = (t :: ts).map fun t => some (String.ofList t) := by
  have hsplit : ∀ {us ts : List (List Char)}, List.Forall₂ (ReadsBack x fs depth s) us ts →
      ∃ ws : List (List Piece), (∀ ps ∈ ws, IsWord ps) ∧
        List.Forall₂ (fun u ps => Utf8.encode u = bytesOf ps) us ws ∧
        ExpandTo x fs depth s (ws.map fun ps => wordOf (bytesOf ps)) ts := by
    intro us ts h
    induction h with
    | nil => exact ⟨[], by simp, .nil, .nil⟩
    | cons h _ ih =>
      rcases h with ⟨ps, hword, hbytes, hexpands⟩
      rcases ih with ⟨ws, hwords, hall, hexpand⟩
      refine ⟨ps :: ws, ?_, .cons hbytes hall, .cons hexpands hexpand⟩
      simpa using ⟨hword, hwords⟩
  rcases hu with ⟨w, hword, hbytes, hexpands⟩
  rcases hsplit hus with ⟨ws, hwords, hall, hexpand⟩
  have htext : Utf8.encode (String.ofList ([' '].intercalate (u :: us))).toList =
      lineBytes w ws := by
    rw [String.toList_ofList]
    exact encode_intercalate hbytes hall
  rcases parse_words hword hwords (by rw [← hbytes]; exact hstart) htext with ⟨span, hparse⟩
  have hline : ExpandTo x fs depth s ((w :: ws).map fun ps => wordOf (bytesOf ps)) (t :: ts) :=
    .cons hexpands hexpand
  refine ⟨_, span, hparse, expandArgv_of_expandTo (by simp) hline hcount, ?_, ?_⟩
  · exact List.forall₂_eq_eq_eq ▸ (List.forall₂_map_left_iff.mpr
      (List.forall₂_map_right_iff.mpr (hline.imp fun _ _ h => h.1.2)))
  · exact List.forall₂_eq_eq_eq ▸ (List.forall₂_map_left_iff.mpr
      (List.forall₂_map_right_iff.mpr (hline.imp fun _ _ h => h.1.1)))

end

end Wasmsh

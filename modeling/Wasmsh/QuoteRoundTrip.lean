import Wasmsh.Arguments
import Wasmsh.Parameters

/-!
# Quoting and reading back

Three ways to write a text so that the shell reads it as one word: between single quotes,
between double quotes, and with a backslash before every character.  The word parser takes
the text between single quotes as a slice of its source but builds all other text byte by
byte, so only ASCII survives the other two; and a tilde is expanded after the quotes are
removed.
-/

namespace Wasmsh

open Wasmsh.Parser WordParser Expand

/-! ## 1. The texts -/

/-- The characters that are escaped between double quotes. -/
def isEscapedInQuotes (c : Char) : Bool := ['$', '`', '"', '\\'].contains c

/-- A backslash where double quotes need one. -/
def escapeInQuotes (c : Char) : List Char := if isEscapedInQuotes c then ['\\', c] else [c]

/-- The text between double quotes. -/
def doubleQuoteText (t : List Char) : List Char := '"' :: t.flatMap escapeInQuotes ++ ['"']

/-- The text with a backslash before every character. -/
def backslashText (t : List Char) : List Char := t.flatMap fun c => ['\\', c]

/-- `${x@Q}` prints the text between single quotes. -/
theorem transformOperator_quote (rules : Params.Rules) (s : ShellState) {var : List Char}
    (hne : var ≠ []) (hvar : var.all isNameByte = true) :
    Params.tryTransformOperator rules (var ++ ['@', 'Q']) s =
      some (quoteText ((s.getVar (String.ofList var)).getD "").toList) := by
  have hvalid : Params.isValidIdentifier var = true := by
    rw [Params.isValidIdentifier, hvar, Bool.and_true, Bool.not_eq_true', List.isEmpty_eq_false_iff]
    exact hne
  have hreverse : (var ++ ['@', 'Q']).reverse = 'Q' :: '@' :: var.reverse := by simp
  unfold Params.tryTransformOperator
  rw [hreverse]
  simp only [List.reverse_reverse, hvalid, Bool.not_true, Bool.false_eq_true, if_false, if_true]
  rfl

/-! ## 2. Their bytes -/

theorem encodeChar_cases (c : Char) : c.toNat < 0x80 ∧ Utf8.encodeChar c = [c] ∨
    ¬ c.toNat < 0x80 ∧ ∀ b ∈ Utf8.encodeChar c, ¬ b.toNat < 0x80 := by
  by_cases hc : c.toNat < 0x80
  · left
    refine ⟨hc, ?_⟩
    simp [Utf8.encodeChar, hc]
  · right
    refine ⟨hc, fun b hb hlt => hc ?_⟩
    exact Utf8.eq_of_mem_encodeChar hlt hb ▸ hlt

theorem isEscapedInQuotes_ascii {c : Char} (h : isEscapedInQuotes c = true) : c.toNat < 0x80 := by
  simp only [isEscapedInQuotes, List.contains_cons, List.contains_nil, Bool.or_false,
    Bool.or_eq_true, beq_iff_eq] at h
  rcases h with rfl | rfl | rfl | rfl <;> decide

/-- The bytes of an escaped text are its escaped bytes. -/
theorem encode_escapeInQuotes (t : List Char) :
    Utf8.encode (t.flatMap escapeInQuotes) = (Utf8.encode t).flatMap escapeInQuotes := by
  induction t with
  | nil => rfl
  | cons c t ih =>
    rw [List.flatMap_cons, Utf8.encode_append, ih, Utf8.encode_cons, List.flatMap_append]
    congr 1
    rcases encodeChar_cases c with ⟨hc, hone⟩ | ⟨hc, hbytes⟩
    · rw [hone, List.flatMap_cons, List.flatMap_nil, List.append_nil]
      apply Utf8.encode_of_ascii
      intro b hb
      unfold escapeInQuotes at hb
      split at hb
      · rcases List.mem_cons.mp hb with rfl | hb
        · decide
        · exact List.mem_singleton.mp hb ▸ hc
      · exact List.mem_singleton.mp hb ▸ hc
    · have hplain : escapeInQuotes c = [c] :=
        if_neg fun h => hc (isEscapedInQuotes_ascii h)
      have hself : ∀ bs : List Char, (∀ b ∈ bs, ¬ b.toNat < 0x80) →
          bs.flatMap escapeInQuotes = bs := by
        intro bs hbs
        induction bs with
        | nil => rfl
        | cons b bs ih =>
          have hb : escapeInQuotes b = [b] :=
            if_neg fun h => hbs b (.head _) (isEscapedInQuotes_ascii h)
          rw [List.flatMap_cons, hb, ih fun b' hb' => hbs b' (.tail _ hb')]
          rfl
      rw [hplain, hself _ hbytes]
      simp

/-! ## 3. The word parser -/

theorem dqBackslash_escaped (lit rest : List Char) (pos : Nat) {b : Char}
    (hb : isEscapedInQuotes b = true) :
    dqBackslash lit ⟨pos, '\\' :: b :: rest⟩ = (lit ++ [b], ⟨pos + 2, rest⟩) := by
  have hne : b ≠ '\n' := by
    rintro rfl
    cases hb
  simp only [dqBackslash]
  rw [if_pos (show ['$', '`', '"', '\\'].contains b = true from hb)]

theorem doubleQuotedLoop_plain_byte (lit rest : List Char) (n pos : Nat) {b : Char}
    (hb : ¬ isEscapedInQuotes b = true) :
    doubleQuotedLoop (n + 1) lit ⟨pos, b :: rest⟩ =
      doubleQuotedLoop n (lit ++ [b]) ⟨pos + 1, rest⟩ := by
  simp only [doubleQuotedLoop]
  split
  · next h => cases h
  · next h => exact absurd ((List.cons.inj h).1 ▸ rfl) hb
  · next h => exact absurd ((List.cons.inj h).1 ▸ rfl) hb
  · next h => exact absurd ((List.cons.inj h).1 ▸ rfl) hb
  · next h => exact absurd ((List.cons.inj h).1 ▸ rfl) hb
  · next h =>
    cases h
    rfl

/-- The loop of the double quotes gives back the bytes that were escaped. -/
theorem doubleQuotedLoop_escaped (rest bs : List Char) : ∀ (lit : List Char) (n pos : Nat),
    (bs.flatMap escapeInQuotes).length < n →
    (doubleQuotedLoop n lit ⟨pos, bs.flatMap escapeInQuotes ++ '"' :: rest⟩).content.parts =
        flush (lit ++ bs) ∧
      (doubleQuotedLoop n lit ⟨pos, bs.flatMap escapeInQuotes ++ '"' :: rest⟩).next.rest = rest := by
  induction bs with
  | nil =>
    intro lit n pos hn
    cases n with
    | zero => cases hn
    | succ n =>
      rw [List.append_nil]
      exact ⟨rfl, rfl⟩
  | cons b bs ih =>
    intro lit n pos hn
    cases n with
    | zero => cases hn
    | succ n =>
      rw [List.flatMap_cons, List.length_append] at hn
      rw [List.flatMap_cons, List.append_assoc]
      by_cases hb : isEscapedInQuotes b = true
      · have hesc : escapeInQuotes b = ['\\', b] := if_pos hb
        rw [hesc] at hn ⊢
        have hloop : doubleQuotedLoop (n + 1) lit
            ⟨pos, ['\\', b] ++ (bs.flatMap escapeInQuotes ++ '"' :: rest)⟩ =
            doubleQuotedLoop n (lit ++ [b]) ⟨pos + 2, bs.flatMap escapeInQuotes ++ '"' :: rest⟩ := by
          simp only [doubleQuotedLoop, List.cons_append, List.nil_append,
            dqBackslash_escaped lit _ pos hb]
        have hstep := ih (lit ++ [b]) n (pos + 2)
          (by simp only [List.length_cons, List.length_nil] at hn; omega)
        rw [hloop, List.append_cons lit b bs]
        exact hstep
      · have hesc : escapeInQuotes b = [b] := if_neg hb
        rw [hesc] at hn ⊢
        have hstep := ih (lit ++ [b]) n (pos + 1)
          (by simp only [List.length_cons, List.length_nil] at hn; omega)
        rw [List.singleton_append, doubleQuotedLoop_plain_byte lit _ n pos hb, List.append_cons lit b bs]
        exact hstep

/-- Between double quotes the bytes of a text are one literal. -/
theorem wordOf_doubleQuoteText (t : List Char) :
    wordOf (Utf8.encode (doubleQuoteText t)) = ⟨[.doubleQuoted (flush (Utf8.encode t))]⟩ := by
  have henc : Utf8.encode (doubleQuoteText t) =
      '"' :: ((Utf8.encode t).flatMap escapeInQuotes ++ ['"']) := by
    rw [doubleQuoteText, List.cons_append, Utf8.encode_cons, Utf8.encode_append,
      encode_escapeInQuotes]
    rfl
  rcases doubleQuotedLoop_escaped [] (Utf8.encode t) []
    ((Utf8.encode t).flatMap escapeInQuotes ++ ['"']).length 1
    (by rw [List.length_append]; exact Nat.lt_succ_self _) with ⟨hparts, hnext⟩
  have hstep : parseWordPart [] ⟨0, '"' :: ((Utf8.encode t).flatMap escapeInQuotes ++ ['"'])⟩ =
      doubleQuotedStep [] ⟨1, (Utf8.encode t).flatMap escapeInQuotes ++ ['"']⟩ := rfl
  have hdone : ∀ n (c : Text), c.rest = [] → (parseWordLoop n [] c).parts = [] := by
    intro n c hc
    cases n with
    | zero => rfl
    | succ n => simp only [parseWordLoop, hc]; rfl
  rw [henc]
  simp only [wordOf, parseWordParts, List.length_cons, parseWordLoop, hstep, doubleQuotedStep,
    parseDoubleQuoted]
  rw [hdone _ _ hnext, hparts]
  by_cases hnil : Utf8.encode t = []
  · simp [flush, hnil, decodeParts, decodePart]
  · simp [flush, hnil, decodeParts, decodePart]

theorem parseWordLoop_plain (bs : List Char) : ∀ (lit rest : List Char) (n pos : Nat),
    (∀ b ∈ bs, isPlainByte b = true) →
    (parseWordLoop (bs.length + n) lit ⟨pos, bs ++ rest⟩).parts =
      (parseWordLoop n (lit ++ bs) ⟨pos + bs.length, rest⟩).parts := by
  induction bs with
  | nil =>
    intro lit rest n pos hbs
    rw [List.append_nil, List.length_nil, Nat.zero_add]
    rfl
  | cons b bs ih =>
    intro lit rest n pos hbs
    have hlen : (b :: bs).length + n = (bs.length + n) + 1 := by
      rw [List.length_cons]
      omega
    have hpos : pos + (b :: bs).length = pos + 1 + bs.length := by
      rw [List.length_cons]
      omega
    rw [hlen, List.append_cons lit b bs, hpos,
      ← ih (lit ++ [b]) rest n (pos + 1) fun b' hb' => hbs b' (.tail _ hb')]
    simp only [List.cons_append, parseWordLoop, parseWordPart_plain (hbs b (.head _)),
      List.nil_append]

/-- A backslash takes the first byte of a character, and the other bytes are not special. -/
theorem parseWordLoop_backslashText (t : List Char) : ∀ (lit : List Char) (n pos : Nat),
    '\n' ∉ t → (Utf8.encode (backslashText t)).length ≤ n →
    (parseWordLoop n lit ⟨pos, Utf8.encode (backslashText t)⟩).parts =
      flush (lit ++ Utf8.encode t) := by
  induction t with
  | nil =>
    intro lit n pos hnl hn
    rw [Utf8.encode_nil, List.append_nil]
    cases n <;> rfl
  | cons c t ih =>
    intro lit n pos hnl hn
    have henc : Utf8.encode (backslashText (c :: t)) =
        '\\' :: (Utf8.encodeChar c ++ Utf8.encode (backslashText t)) := by
      rw [backslashText, List.flatMap_cons, Utf8.encode_append]
      simp [backslashText, Utf8.encodeChar]
    rcases List.exists_cons_of_ne_nil (Utf8.encodeChar_ne_nil c) with ⟨b, bs, hbs⟩
    have hb : b ≠ '\n' := by
      rintro rfl
      refine hnl (List.mem_cons.mpr (.inl ?_))
      exact Utf8.eq_of_mem_encodeChar (by decide) (hbs ▸ .head _)
    have hplain : ∀ b' ∈ bs, isPlainByte b' = true := by
      intro b' hb'
      refine isPlainByte_of_not_ascii (Nat.le_of_not_lt ?_)
      rcases encodeChar_cases c with ⟨-, hone⟩ | ⟨-, hbytes⟩
      · rw [hone] at hbs
        injection hbs with _ hnil
        rw [← hnil] at hb'
        cases hb'
      · exact hbytes b' (hbs ▸ .tail _ hb')
    rw [henc, hbs, List.cons_append] at hn ⊢
    simp only [List.length_cons, List.length_append] at hn
    obtain ⟨m, rfl⟩ : ∃ m, n = (bs.length + m) + 1 := ⟨n - 1 - bs.length, by omega⟩
    have hstep : parseWordPart lit
        ⟨pos, '\\' :: b :: (bs ++ Utf8.encode (backslashText t))⟩ =
        ⟨lit ++ [b], [], [], ⟨pos + 2, bs ++ Utf8.encode (backslashText t)⟩⟩ := by
      simp only [parseWordPart, parseEscapedLiteral]
    simp only [parseWordLoop, hstep, List.nil_append]
    rw [parseWordLoop_plain bs _ _ _ _ hplain,
      ih _ m _ (fun h => hnl (.tail _ h)) (by omega), Utf8.encode_cons, hbs]
    simp

/-- A text escaped character by character is one literal of its bytes. -/
theorem wordOf_backslashText {t : List Char} (hnl : '\n' ∉ t) :
    wordOf (Utf8.encode (backslashText t)) = ⟨flush (Utf8.encode t)⟩ := by
  rw [wordOf, parseWordParts,
    parseWordLoop_backslashText t [] _ 0 hnl (Nat.le_refl _), List.nil_append]
  by_cases hnil : Utf8.encode t = []
  · simp [flush, hnil, decodeParts]
  · simp [flush, hnil, decodeParts, decodePart]

/-! ## 4. Expansion -/

section

variable (x : Expander) (s : ShellState)

/-- The fields that `expand_words_argv` makes of a word that is written as `u`. -/
def fieldsOf (u : List Char) : List (List Char) :=
  (expandWordsArgv x [wordOf (Utf8.encode u)] s).2.map Masked.text

variable {x s}

/-- A word of one field whose parts write nothing. -/
theorem fieldsOf_single {u : List Char} {m : Masked}
    (hone : partsHaveMultiField (wordOf (Utf8.encode u)).parts = false)
    (hparts : expandPartsMasked x false 0 (wordOf (Utf8.encode u)).parts s = ([], m)) :
    fieldsOf x s u = [expandTildeText m.text s] := by
  simp only [fieldsOf, expandWordsArgv, expandWordArgv_single hone, expandWordMasked, hparts,
    ShellState.after_nil, List.append_nil, List.map_cons, List.map_nil, text_expandTilde]

theorem fieldsOf_quoteText (t : List Char) :
    fieldsOf x s (quoteText t) = [expandTildeText t s] := by
  have hword : (wordOf (Utf8.encode (quoteText t))).parts =
      decodeParts (partsFrom [] (quotedPieces [] t)) := by
    rw [encode_quoteText, wordOf, parseWordParts_bytesOf (isWord_quotedPieces t).wellFormed]
  have htext : (Masked.ofText false [] ++ .ofText true [] ++ quotedMask t).text = t := by
    simp [Masked.ofText, text_quotedMask]
  have hone : partsHaveMultiField (wordOf (Utf8.encode (quoteText t))).parts = false := by
    rw [hword, partsHaveMultiField_partsFrom]
  rw [fieldsOf_single hone (by rw [hword, expandPartsMasked_quotedPieces]), htext]

theorem fieldsOf_doubleQuoteText (t : List Char) :
    fieldsOf x s (doubleQuoteText t) = [expandTildeText (Utf8.encode t) s] := by
  rw [@fieldsOf_single x s _ (.ofText true (Utf8.encode t)), Masked.text_ofText]
  · rw [wordOf_doubleQuoteText]
    by_cases hnil : Utf8.encode t = []
    · simp [flush, hnil, partsHaveMultiField, partHasMultiField]
    · simp [flush, hnil, partsHaveMultiField, partHasMultiField]
  · rw [wordOf_doubleQuoteText]
    by_cases hnil : Utf8.encode t = []
    · simp [flush, hnil, expandPartsMasked, expandPartMasked, maxExpandDepth, Masked.ofText]
    · simp [flush, hnil, expandPartsMasked, expandPartMasked, maxExpandDepth, Masked.ofText]

theorem fieldsOf_backslashText {t : List Char} (hnl : '\n' ∉ t) :
    fieldsOf x s (backslashText t) = [expandTildeText (Utf8.encode t) s] := by
  rw [@fieldsOf_single x s _ (.ofText false (Utf8.encode t)), Masked.text_ofText]
  · rw [wordOf_backslashText hnl]
    by_cases hnil : Utf8.encode t = []
    · simp [flush, hnil, partsHaveMultiField]
    · simp [flush, hnil, partsHaveMultiField, partHasMultiField]
  · rw [wordOf_backslashText hnl, ← List.append_nil (flush _), expandPartsMasked_flush]
    simp [expandPartsMasked]

/-! ## 5. What survives -/

/-- No tilde is expanded in the text, or `HOME` is a tilde itself. -/
def TildeStays (s : ShellState) (t : List Char) : Prop :=
  isTildeText t = true → ∀ home, s.getVar "HOME" = some home → home.toList = ['~']

theorem expandTildeText_eq_self_iff (t : List Char) :
    expandTildeText t s = t ↔ TildeStays s t := by
  unfold expandTildeText TildeStays
  by_cases ht : isTildeText t = true
  · rw [if_pos ht]
    have hcons : t = ['~'] ++ t.drop 1 := by
      rw [isTildeText, Bool.or_eq_true, beq_iff_eq, beq_iff_eq] at ht
      rcases ht with rfl | ht
      · rfl
      · cases t with
        | nil => cases ht
        | cons c t =>
          rw [List.take_succ_cons] at ht
          rw [(List.cons.inj ht).1]
          rfl
    cases hhome : s.getVar "HOME" with
    | none =>
      constructor
      · intro _ _ _ h
        cases h
      · intro _
        rfl
    | some home =>
      constructor
      · intro h _ home' heq
        cases heq
        have happ : home.toList ++ t.drop 1 = ['~'] ++ t.drop 1 := h.trans hcons
        exact List.append_cancel_right happ
      · intro h
        have hself := h ht home rfl
        dsimp only
        rw [hself, ← hcons]
  · rw [if_neg ht]
    exact ⟨fun _ h => absurd h ht, fun _ => rfl⟩

/-- A character beyond ASCII makes the bytes longer than the text. -/
theorem length_lt_encode {t : List Char} (h : ∃ c ∈ t, ¬ c.toNat < 0x80) :
    t.length < (Utf8.encode t).length := by
  obtain ⟨c, hc, hwide⟩ := h
  obtain ⟨front, back, rfl⟩ := List.append_of_mem hc
  have hchar := Utf8.one_lt_length_encodeChar (Nat.le_of_not_lt hwide)
  have hfront := Utf8.length_le_encode front
  have hback := Utf8.length_le_encode back
  simp only [Utf8.encode_append, Utf8.encode_cons, List.length_append, List.length_cons]
  omega

/-- A home directory cannot make up for the bytes of a character. -/
theorem expandTildeText_encode_eq_iff (t : List Char) :
    expandTildeText (Utf8.encode t) s = t ↔ (∀ c ∈ t, c.toNat < 0x80) ∧ TildeStays s t := by
  constructor
  · intro h
    have hascii : ∀ c ∈ t, c.toNat < 0x80 := by
      by_contra hbig
      have hlt := length_lt_encode (t := t) (by simpa only [not_forall, exists_prop] using hbig)
      unfold expandTildeText at h
      by_cases htilde : isTildeText (Utf8.encode t) = true
      · rw [if_pos htilde] at h
        cases hhome : s.getVar "HOME" with
        | none =>
          rw [hhome] at h
          dsimp only at h
          rw [h] at hlt
          exact Nat.lt_irrefl _ hlt
        | some home =>
          rw [hhome] at h
          dsimp only at h
          -- The home directory is empty, so the text starts after the tilde of its own bytes.
          have hlen := congrArg List.length h
          rw [List.length_append, List.length_drop] at hlen
          have hnil : home.toList = [] := by
            apply List.eq_nil_of_length_eq_zero
            omega
          rw [hnil, List.nil_append] at h
          rw [isTildeText, Bool.or_eq_true, beq_iff_eq, beq_iff_eq] at htilde
          rcases htilde with htilde | htilde
          · rw [htilde] at h
            rw [← h] at htilde
            cases htilde
          · rcases henc : Utf8.encode t with _ | ⟨b, _ | ⟨b', r⟩⟩
            · rw [henc] at htilde
              cases htilde
            · rw [henc] at htilde
              cases htilde
            · rw [henc] at h htilde
              simp only [List.take_succ_cons, List.take_zero, List.cons.injEq, and_true] at htilde
              rcases htilde with ⟨rfl, rfl⟩
              rw [← h] at henc
              cases henc
      · rw [if_neg htilde] at h
        rw [h] at hlt
        exact Nat.lt_irrefl _ hlt
    rw [Utf8.encode_of_ascii hascii] at h
    exact ⟨hascii, (expandTildeText_eq_self_iff t).mp h⟩
  · rintro ⟨hascii, htilde⟩
    rw [Utf8.encode_of_ascii hascii]
    exact (expandTildeText_eq_self_iff t).mpr htilde

end

/-- **Quoting and reading back.**  A text between single quotes, which is what `${x@Q}`
    prints, expands to itself exactly when its tilde stays.  Between double quotes, and with
    a backslash before every character of one line, it also has to be ASCII. -/
theorem quoting_reads_back_iff (x : Expander) (rules : Params.Rules) (s : ShellState)
    (t : List Char) :
    (fieldsOf x s (quoteText t) = [t] ↔ TildeStays s t) ∧
      (fieldsOf x s (doubleQuoteText t) = [t] ↔
        (∀ c ∈ t, c.toNat < 0x80) ∧ TildeStays s t) ∧
      ('\n' ∉ t → (fieldsOf x s (backslashText t) = [t] ↔
        (∀ c ∈ t, c.toNat < 0x80) ∧ TildeStays s t)) ∧
      ∀ var : List Char, var ≠ [] → var.all isNameByte = true →
        s.getVar (String.ofList var) = some (String.ofList t) →
          Params.tryTransformOperator rules (var ++ ['@', 'Q']) s = some (quoteText t) := by
  refine ⟨?_, ?_, ?_, ?_⟩
  · rw [fieldsOf_quoteText, List.singleton_inj]
    exact expandTildeText_eq_self_iff t
  · rw [fieldsOf_doubleQuoteText, List.singleton_inj]
    exact expandTildeText_encode_eq_iff t
  · intro hnl
    rw [fieldsOf_backslashText hnl, List.singleton_inj]
    exact expandTildeText_encode_eq_iff t
  · intro var hne hvar hval
    rw [transformOperator_quote rules s hne hvar, hval, Option.getD_some, String.toList_ofList]

/-- A tilde between single quotes is expanded, and `é` does not survive double quotes or a
    backslash. -/
theorem quoting_not_read_back :
    let x := Expander.empty
    let s := ShellState.new.setEntry "HOME" (.ofScalar "/h")
    fieldsOf x s (quoteText ['~']) = [['/', 'h']] ∧
      fieldsOf x s (doubleQuoteText ['é']) = [['Ã', '©']] ∧
      fieldsOf x s (backslashText ['é']) = [['Ã', '©']] := by
  decide +kernel

end Wasmsh

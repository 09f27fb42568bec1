import Wasmsh.BraceExpansion
import Wasmsh.LexerBounds
import Wasmsh.QuoteRoundTrip
import Wasmsh.WordTexts

/-!
# `printf %q`

`shell_quote` leaves a harmless text bare and writes any other between `$'` and `'`.  The
lexer ends `$'...'` at the first quote, escaped or not, and the word parser makes an unquoted
literal of it, byte by byte; so the text comes back only without a quote, in ASCII, and when
no expansion touches it.
-/

namespace Wasmsh.ShellQuote

open Scanning Wasmsh.Lex Wasmsh.Parser WordParser WordTexts Braces BraceGroups Globs Expand

variable {t : List Char} {r : List Char} {marks : List Mark}

/-! ## 1. The text -/

/-- A character that needs no quotes. -/
def isBare (c : Char) : Bool := c.isAlphanum || ['_', '-', '.', '/', ':'].contains c

/-- The characters `shell_quote` writes with a backslash, and what it writes after it. -/
def letters : List (Char × Char) :=
  [('\'', '\''), ('\\', '\\'), ('\n', 'n'), ('\t', 't'), ('\r', 'r'), ('\x07', 'a'),
    ('\x08', 'b')]

def escapeChar (c : Char) : List Char :=
  match letters.lookup c with
  | some l => ['\\', l]
  | none => [c]

/-- `shell_quote`. -/
def shellQuote (s : List Char) : List Char :=
  if s = [] then ['\'', '\'']
  else if s.all isBare then s
  else '$' :: '\'' :: (s.flatMap escapeChar ++ ['\''])

/-- The first token of the text is a word and covers all of it. -/
def IsOneWord (src : List Char) : Prop :=
  ∃ lexed, nextToken (lexerAt src 0) = .ok lexed ∧
    (∃ candidate, lexed.token.kind = .word candidate) ∧ lexed.token.span = ⟨0, src.length⟩

/-- In any state the word expands to that one field. -/
def ExpandsBack (src t : List Char) : Prop :=
  ∀ x fs depth s, expandArgv x fs depth [wordOf src] s = ([], some [String.ofList t])

/-- What `printf %q` prints for a text is one word that expands to the text. -/
def RoundTrips (t : List Char) : Prop :=
  IsOneWord (Utf8.encode (shellQuote t)) ∧ ExpandsBack (Utf8.encode (shellQuote t)) t

/-- No expansion of an unquoted text changes it, in no state. -/
structure IsInertAnywhere (t : List Char) : Prop where
  tilde : isTildeText t = false
  braces : openPair id id t = none
  pathname : ∀ o, isGlobPattern o t = false

/-! ## 2. The word -/

theorem lookup_eq_some {c l : Char} (h : letters.lookup c = some l) : (c, l) ∈ letters := by
  rw [List.lookup_eq_some_iff] at h
  rcases h with ⟨before, after, hsplit, -⟩
  rw [hsplit]
  simp

/-- The piece of `$'...'` that stands for a character. -/
def itemOf (c : Char) : AnsiItem :=
  match letters.lookup c with
  | some l => .escape l c
  | none => .char c

theorem source_itemOf (c : Char) : (itemOf c).source = escapeChar c := by
  unfold itemOf escapeChar
  cases letters.lookup c <;> rfl

theorem ansiSource_items (t : List Char) : ansiSource (t.map itemOf) = t.flatMap escapeChar := by
  induction t with
  | nil => rfl
  | cons c t ih =>
    rw [List.flatMap_cons, ← ih, ← source_itemOf]
    rfl

theorem itemOf_wellFormed (c : Char) (rest : List Char) : (itemOf c).WellFormed rest := by
  unfold itemOf
  cases hl : letters.lookup c with
  | some l =>
    have hall : ∀ e ∈ letters, (e.2, e.1) ∈ simpleEscapes :=
      List.all_iff_forall_prop.mp (by decide)
    exact hall (c, l) (lookup_eq_some hl)
  | none =>
    simp only [AnsiItem.WellFormed, List.mem_cons, List.not_mem_nil, or_false, not_or]
    constructor
    · rintro rfl
      cases hl
    · rintro rfl
      cases hl

theorem items_wellFormed (t : List Char) : AnsiWellFormed (t.map itemOf) := by
  induction t with
  | nil => trivial
  | cons c t ih => exact ⟨itemOf_wellFormed c _, ih⟩

theorem written_itemOf (c : Char) : (itemOf c).text.flatMap written = Utf8.encodeChar c := by
  unfold itemOf
  cases hl : letters.lookup c with
  | some l =>
    have hall : ∀ e ∈ letters, e.1.toNat < 0x80 := List.all_iff_forall_prop.mp (by decide)
    have hc := hall (c, l) (lookup_eq_some hl)
    simp [AnsiItem.text, written, Utf8.encodeChar, hc]
  | none => simp [AnsiItem.text, written]

theorem written_items (t : List Char) :
    ((t.map itemOf).flatMap AnsiItem.text).flatMap written = Utf8.encode t := by
  induction t with
  | nil => rfl
  | cons c t ih =>
    rw [List.map_cons, List.flatMap_cons, List.flatMap_append, ih, written_itemOf,
      Utf8.encode_cons]

theorem encode_quoted (t : List Char) :
    Utf8.encode ('$' :: '\'' :: (t.flatMap escapeChar ++ ['\''])) =
      '$' :: '\'' :: (Utf8.encode (ansiSource (t.map itemOf)) ++ ['\'']) := by
  rw [Utf8.encode_cons, Utf8.encode_cons, Utf8.encode_append, ansiSource_items]
  rfl

/-- The word parser makes one unquoted literal of the bytes of the text. -/
theorem wordOf_quoted (t : List Char) :
    wordOf (Utf8.encode ('$' :: '\'' :: (t.flatMap escapeChar ++ ['\'']))) =
      ⟨[.literal (Utf8.encode t)]⟩ := by
  have hread := readsAnsi_items (items_wellFormed t) [] _ 2 [] (Nat.le_refl _)
  rw [written_items, List.nil_append] at hread
  rw [encode_quoted]
  generalize Utf8.encode (ansiSource (t.map itemOf)) ++ ['\''] = bytes at hread
  have hstep : parseWordPart [] ⟨0, '$' :: '\'' :: bytes⟩ =
      ⟨[], [.literal (parseAnsiCQuoted ⟨2, bytes⟩).content],
        (parseAnsiCQuoted ⟨2, bytes⟩).marks .singleQuoted ⟨2, bytes⟩ [],
        (parseAnsiCQuoted ⟨2, bytes⟩).next⟩ := rfl
  have hcontent : (parseAnsiCQuoted ⟨2, bytes⟩).content = Utf8.encode t := hread.1
  have hnext : (parseAnsiCQuoted ⟨2, bytes⟩).next.rest = [] := hread.2
  have hdone : ∀ n, (parseWordLoop n [] (parseAnsiCQuoted ⟨2, bytes⟩).next).parts = [] := by
    intro n
    cases n with
    | zero => rfl
    | succ n =>
      simp only [parseWordLoop, hnext]
      rfl
  rw [wordOf, parseWordParts, List.length_cons]
  generalize ('\'' :: bytes).length = n
  simp only [parseWordLoop, hstep, hdone, hcontent]
  rfl

theorem isPlainText_of_bare (hne : t ≠ []) (h : t.all isBare = true) :
    IsPlainText t := by
  have hbare : ∀ c ∈ t, isBare c = true := List.all_eq_true.mp h
  have hnot : ∀ c, isBare c = false → c ∉ t := by
    intro c hc hmem
    rw [hbare c hmem] at hc
    cases hc
  have hascii : ∀ c, isBare c = true → c.toNat < 0x80 := by
    intro c hc
    rw [isBare, Bool.or_eq_true] at hc
    rcases hc with hc | hc
    · exact isNameByte_ascii (by rw [isNameByte, hc, Bool.true_or])
    · rw [List.contains_iff_mem] at hc
      have hall : ∀ d ∈ ['_', '-', '.', '/', ':'], d.toNat < 0x80 :=
        List.all_iff_forall_prop.mp (by decide)
      exact hall c hc
  refine ⟨hne, fun c hc => hascii c (hbare c hc), ?_, ?_, ?_, ?_⟩
  · intro c hc
    have hplain : ∀ d, isBare d = false → c ≠ d := by
      rintro d hd rfl
      exact hnot _ hd hc
    simp only [isPlainByte, isWordBreak, List.contains_cons, List.contains_nil, Bool.or_false,
      Bool.not_eq_true', Bool.and_eq_true, Bool.or_eq_false_iff, beq_eq_false_iff_ne]
    and_intros <;> exact hplain _ (by decide)
  · intro hhead
    exact hnot '#' (by decide) (List.mem_of_mem_head? hhead)
  · rintro rfl
    exact hnot '[' (by decide) (.head _)
  · rintro rfl
    exact hnot ']' (by decide) (.head _)

theorem not_mem_of_bare (h : t.all isBare = true) :
    ∀ c ∈ ['{', '~', '*', '?', '[', '(', '\''], c ∉ t := by
  intro c hc hmem
  have hall : ∀ d ∈ ['{', '~', '*', '?', '[', '(', '\''], isBare d = false :=
    List.all_iff_forall_prop.mp (by decide)
  have hbare := List.all_eq_true.mp h c hmem
  rw [hall c hc] at hbare
  cases hbare

/-! ## 3. Its expansion -/

section

variable {x : Expander} {fs : Files} {depth : Nat} {s : ShellState}

theorem expandTilde_ofText (v : List Char) :
    expandTilde (.ofText false v) s = .ofText false (expandTildeText v s) := by
  unfold expandTilde expandTildeText
  rw [Masked.text_ofText]
  by_cases hv : isTildeText v = true
  · rw [if_pos hv, if_pos hv]
    cases s.getVar "HOME" <;> rfl
  · rw [if_neg hv, if_neg hv]

/-- An unquoted literal goes through the tilde, braces and pathname expansion. -/
theorem expandArgv_literal (v : List Char) :
    expandArgv x fs depth [⟨[.literal v]⟩] s =
      ([], some ((expandGlobsTagged fs (.of s) s.cwd.toList depth
        ((expandBraces (expandTildeText v s)).map fun t =>
          ⟨t, false, List.replicate (Utf8.encode t).length false⟩)).map String.ofList)) := by
  have hword : expandWordArgv x ⟨[.literal v]⟩ s =
      ([], [.ofText false (expandTildeText v s)]) := by
    rw [expandWordArgv_single rfl]
    simp only [expandWordMasked, expandPartsMasked_literal, ShellState.after_nil,
      expandTilde_ofText]
  have hwords : expandWordsArgv x [⟨[.literal v]⟩] s =
      ([], [.ofText false (expandTildeText v s)]) := by
    simp only [expandWordsArgv, hword, List.append_nil]
  have hbraces : braceWords (.ofText false (expandTildeText v s)) =
      (expandBraces (expandTildeText v s)).map fun t =>
        ⟨t, false, List.replicate (Utf8.encode t).length false⟩ := by
    rw [braceWords, Masked.wasQuoted_ofText_false, if_neg Bool.false_ne_true, Masked.text_ofText]
  simp only [expandArgv, hwords, ShellState.after_nil, List.flatMap_cons, List.flatMap_nil,
    List.append_nil, hbraces, List.isEmpty_cons, Bool.false_eq_true, if_false]

theorem expandArgv_inert {v : List Char} (h : IsInertAnywhere v) :
    expandArgv x fs depth [⟨[.literal v]⟩] s = ([], some [String.ofList v]) := by
  have hglob : expandTagged fs (.of s) s.cwd.toList depth
      ⟨v, false, List.replicate (Utf8.encode v).length false⟩ = [v] := by
    rw [expandTagged_unquoted, expandGlobArg, h.pathname]
    rfl
  rw [expandArgv_literal, expandTildeText_of_inert (.inl h.tilde), expandBraces_of_none h.braces,
    List.map_singleton, expandGlobsTagged, List.flatMap_singleton, hglob]
  split <;> rfl

theorem opened_le_of_mem {v t : List Char} (ht : t ∈ expandBraces v) : opened t ≤ opened v := by
  induction hn : opened v using Nat.strong_induction_on generalizing v with
  | _ n ih =>
    cases hopen : openPair id id v with
    | none =>
      rw [expandBraces_of_none hopen] at ht
      rw [List.mem_singleton.mp ht, hn]
    | some words =>
      rw [expandBraces_of_some hopen] at ht
      rcases List.mem_flatMap.mp (List.mem_of_mem_take ht) with ⟨w, hw, ht⟩
      have hlt := opened_openPair hopen hw
      exact Nat.le_of_lt (Nat.lt_of_le_of_lt (ih _ (hn ▸ hlt) ht rfl) (hn ▸ hlt))

/-- A word that has all its braces after their expansion was not expanded. -/
theorem eq_of_expandBraces {v t : List Char} (h : expandBraces v = [t])
    (hcount : opened t = opened v) : t = v ∧ openPair id id v = none := by
  cases hopen : openPair id id v with
  | none =>
    rw [expandBraces_of_none hopen] at h
    exact ⟨(List.cons.inj h).1.symm, rfl⟩
  | some words =>
    -- Every word the first pair opens to has lost that pair.
    have hmem : t ∈ expandBraces v := h ▸ .head _
    rw [expandBraces_of_some hopen] at hmem
    rcases List.mem_flatMap.mp (List.mem_of_mem_take hmem) with ⟨w, hw, ht⟩
    have hlt := opened_openPair hopen hw
    have hle := opened_le_of_mem ht
    omega

/-! The states that show an expansion: pathname expansion off, a home directory of no
    characters, and patterns without a match that vanish. -/

def plainState : ShellState := ShellState.new.setEntry "SHOPT_f" (.ofScalar "1")

def homeState : ShellState := plainState.setEntry "HOME" (.ofScalar "")

def vanishState : ShellState :=
  (ShellState.new.setEntry "SHOPT_nullglob" (.ofScalar "1")).setEntry "SHOPT_extglob"
    (.ofScalar "1")

theorem isGlobPattern_mono {o o' : GlobOptions} (h : isGlobPattern o t = true)
    (ho : o'.extglob = true) : isGlobPattern o' t = true := by
  simp only [isGlobPattern, Bool.or_eq_true, Bool.and_eq_true, ho, true_and] at h ⊢
  rcases h with h | h
  · exact .inl h
  · exact .inr h.2

/-- Without files, and without patterns that stay, a pattern is no field. -/
theorem expandGlobArg_vanish (h : isGlobPattern (.of vanishState) t = true) (cwd : List Char) :
    expandGlobArg ⟨fun _ => none, fun _ => false⟩ (.of vanishState) cwd 0 t = [] := by
  have hnull : (GlobOptions.of vanishState).nullglob = true := by decide
  have hstar : (GlobOptions.of vanishState).globstar = false := by decide
  have hread : ∀ dir pattern before, readGlobMatches ⟨fun _ => none, fun _ => false⟩
      (.of vanishState) dir pattern before = [] := fun _ _ _ => rfl
  have hnone : finalizeGlobMatches (.of vanishState) t [] = [] := by
    simp [finalizeGlobMatches, hnull]
  simp only [expandGlobArg, h, hstar, Bool.not_true, Bool.false_and, Bool.false_eq_true, if_false,
    expandStandardGlobArg, hread, hnone, ite_self]
  split <;> rfl

/-- A literal that comes back is ASCII and has nothing to expand. -/
theorem inert_of_expandArgv
    (h : ∀ x fs depth s, expandArgv x fs depth [⟨[.literal (Utf8.encode t)]⟩] s =
      ([], some [String.ofList t])) :
    (∀ c ∈ t, c.toNat < 0x80) ∧ IsInertAnywhere t := by
  have hof : ∀ {ts : List (List Char)} {u : List Char}, ts.map String.ofList = [String.ofList u] →
      ts = [u] := by
    intro ts u hmap
    rw [List.map_eq_singleton_iff] at hmap
    rcases hmap with ⟨v, rfl, hv⟩
    rw [String.ofList_injective hv]
  have hat : ∀ s fs, expandGlobsTagged fs (.of s) s.cwd.toList 0
      ((expandBraces (expandTildeText (Utf8.encode t) s)).map fun v =>
        ⟨v, false, List.replicate (Utf8.encode v).length false⟩) = [t] := by
    intro s fs
    have hs := h .empty fs 0 s
    rw [expandArgv_literal] at hs
    exact hof (Option.some.inj (Prod.mk.inj hs).2)
  have hbraces : ∀ s : ShellState, (GlobOptions.of s).noglob = true →
      expandBraces (expandTildeText (Utf8.encode t) s) = [t] := by
    intro s hs
    have hfields := hat s ⟨fun _ => none, fun _ => false⟩
    rw [expandGlobsTagged, if_pos hs, List.map_map] at hfields
    simpa using hfields
  have hcount : opened t = opened (Utf8.encode t) := (Utf8.count_encode (by decide) t).symm
  have hplain := hbraces plainState (by decide)
  have hhome := hbraces homeState (by decide)
  have htilde : expandTildeText (Utf8.encode t) plainState = Utf8.encode t :=
    expandTildeText_of_inert (.inr (by decide))
  rw [htilde] at hplain
  rcases eq_of_expandBraces hplain hcount with ⟨hself, hopen⟩
  have hascii := Utf8.ascii_of_encode hself.symm
  rw [← hself] at hopen hhome
  refine ⟨hascii, ⟨?_, hopen, ?_⟩⟩
  · by_contra htext
    rw [Bool.not_eq_false] at htext
    -- The home directory is empty, so the field lacks the tilde.
    have hdrop : expandTildeText t homeState = t.drop 1 := by
      have hvalue : homeState.getVar "HOME" = some "" := by decide
      rw [expandTildeText, if_pos htext, hvalue]
      rfl
    rcases t with _ | ⟨c, r⟩
    · cases htext
    · have hc : c ≠ '{' := by
        rintro rfl
        simp [isTildeText] at htext
      rw [hdrop] at hhome
      have hsame := (eq_of_expandBraces hhome (opened_cons_of_ne hc r)).1
      exact absurd (congrArg List.length hsame) (Nat.succ_ne_self _)
  · intro o
    by_contra hpattern
    rw [Bool.not_eq_false] at hpattern
    have hfields := hat vanishState ⟨fun _ => none, fun _ => false⟩
    have htilde : expandTildeText (Utf8.encode t) vanishState = t := by
      rw [← hself]
      exact expandTildeText_of_inert (.inr (by decide))
    have hglob : (GlobOptions.of vanishState).noglob = false := by decide
    rw [htilde, expandBraces_of_none hopen, List.map_singleton, expandGlobsTagged, hglob,
      if_neg Bool.false_ne_true, List.flatMap_singleton, expandTagged_unquoted,
      expandGlobArg_vanish (isGlobPattern_mono hpattern (by decide))] at hfields
    cases hfields

end

/-! ## 4. Its extent -/

/-- The rest of a quoted text from between two of its characters on. -/
def Tail (r : List Char) : Prop := ∃ t : List Char, r = t.flatMap escapeChar ++ ['\'']

theorem escapeChar_cases (c : Char) : escapeChar c = [c] ∧ c ≠ '\'' ∧ c ≠ '\\' ∨
    ∃ l, escapeChar c = ['\\', l] ∧ l ∈ letters.map Prod.snd := by
  unfold escapeChar
  cases hl : letters.lookup c with
  | some l => exact .inr ⟨l, rfl, List.mem_map_of_mem (lookup_eq_some hl)⟩
  | none =>
    left
    refine ⟨rfl, ?_, ?_⟩
    · rintro rfl
      cases hl
    · rintro rfl
      cases hl

/-- What such a rest begins with. -/
theorem Tail.cases (h : Tail r) : r = ['\''] ∨
    (∃ c r', r = c :: r' ∧ c ≠ '\'' ∧ c ≠ '\\' ∧ Tail r') ∨
    ∃ l r', r = '\\' :: l :: r' ∧ Tail r' := by
  rcases h with ⟨_ | ⟨c, t⟩, rfl⟩
  · exact .inl rfl
  · rw [List.flatMap_cons, List.append_assoc]
    rcases escapeChar_cases c with ⟨hc, hquote, hslash⟩ | ⟨l, hc, -⟩
    · exact .inr (.inl ⟨c, _, by rw [hc]; rfl, hquote, hslash, t, rfl⟩)
    · exact .inr (.inr ⟨l, _, by rw [hc]; rfl, t, rfl⟩)

theorem Tail.quote (h : Tail ('\'' :: r)) : r = [] := by
  rcases h.cases with h | ⟨c, r', h, hc, -⟩ | ⟨l, r', h, -⟩
  · exact (List.cons.inj h).2
  · exact absurd (List.cons.inj h).1.symm hc
  · cases h

theorem Tail.plain {c : Char} (h : Tail (c :: r)) (hquote : c ≠ '\'')
    (hslash : c ≠ '\\') : Tail r := by
  rcases h.cases with h | ⟨c', r', h, -, -, hr⟩ | ⟨l, r', h, -⟩
  · exact absurd (List.cons.inj h).1 hquote
  · rwa [(List.cons.inj h).2]
  · exact absurd (List.cons.inj h).1 hslash

theorem Tail.backslash {c : Text} (hc : c.rest = '\\' :: r) (h : Tail c.rest) :
    Tail (consumeBackslash c).rest := by
  rcases h.cases with h | ⟨c', r', h, -, hslash, -⟩ | ⟨l, r', h, hr⟩
  · rw [hc] at h
    cases h
  · rw [hc] at h
    exact absurd (List.cons.inj h).1.symm hslash
  · rw [consumeBackslash, h]
    exact hr

/-- A closing character is none of those behind a backslash, so it ends a character. -/
theorem Tail.after {r u r' : List Char} {x : Char} (h : Tail r) (hr : r = u ++ x :: r')
    (hx : x ∈ [')', '}', '"', '`']) : Tail r' := by
  have hall : ∀ x ∈ [')', '}', '"', '`'], x ≠ '\'' ∧ x ≠ '\\' ∧ x ∉ letters.map Prod.snd :=
    List.all_iff_forall_prop.mp (by decide)
  rcases hall x hx with ⟨hquote, hslash, hletter⟩
  rcases h with ⟨t, rfl⟩
  induction t generalizing u with
  | nil =>
    rcases u with _ | ⟨d, u⟩
    · exact absurd (List.cons.inj hr).1.symm hquote
    · rcases List.append_eq_nil_iff.mp (List.cons.inj hr).2.symm with ⟨-, h⟩
      cases h
  | cons c t ih =>
    rw [List.flatMap_cons, List.append_assoc] at hr
    rcases escapeChar_cases c with ⟨hc, -, -⟩ | ⟨l, hc, hl⟩
    · rw [hc] at hr
      rcases u with _ | ⟨d, u⟩
      · exact ⟨t, (List.cons.inj hr).2.symm⟩
      · exact ih (List.cons.inj hr).2
    · rw [hc] at hr
      rcases u with _ | ⟨d, _ | ⟨d', u⟩⟩
      · exact absurd (List.cons.inj hr).1.symm hslash
      · rw [← (List.cons.inj (List.cons.inj hr).2).1] at hletter
        exact absurd hl hletter
      · exact ih (List.cons.inj (List.cons.inj hr).2).2

theorem Tail.name (h : Tail r) : Tail (r.drop (r.takeWhile isNameByte).length) := by
  induction r with
  | nil => exact h
  | cons c r ih =>
    rw [List.takeWhile_cons]
    split
    · next hc =>
      refine ih (h.plain ?_ ?_)
      · rintro rfl
        cases hc
      · rintro rfl
        cases hc
    · exact h

theorem Tail.doubleQuoted {depth : Nat} {c c' : Text}
    (h : Tail c.rest) (hc : c.rest.head? = some '"')
    (hread : consumeDoubleQuoted (dollarAt depth) c = .ok (marks, c')) : Tail c'.rest := by
  obtain ⟨⟨ms, c₁⟩, h₁, hread⟩ := bind_eq_ok.mp hread
  obtain ⟨-, rfl⟩ : .opened .doubleQuoted (c.pos + 1) :: ms ++ [.closed .doubleQuoted c₁.pos]
      = marks ∧ c₁ = c' := by simpa using hread
  rcases (doubleQuotedLoop_returns (dollarAt_returns depth 0) _ _ _).of_ok h₁ with ⟨⟨v, hcl⟩, -⟩
  have hv : (c.skip 1).rest = v ++ ['"'] ++ c₁.rest := hcl.rest
  obtain ⟨r, hr⟩ : ∃ r, c.rest = '"' :: r := by
    rcases hrest : c.rest with _ | ⟨b, r⟩
    · rw [hrest] at hc
      cases hc
    · rw [hrest] at hc
      exact ⟨r, by rw [Option.some.inj hc]⟩
  rw [hr] at h
  have hrest : r = v ++ '"' :: c₁.rest := by
    rw [Cursor.skip_rest, hr] at hv
    simpa using hv
  exact (h.plain (by decide) (by decide)).after hrest (by decide)

/-- A `$` in the rest of a quoted text. -/
theorem Tail.dollar {c c' : Text} (h : Tail c.rest)
    (hread : DollarRead c marks c') : Tail c'.rest := by
  have hnext : ∀ {r : List Char}, c.rest = '$' :: r → Tail r := by
    intro r hr
    rw [hr] at h
    exact h.plain (by decide) (by decide)
  have hclosed : ∀ {n : Nat} {v closing : List Char} {x : Char}, x ∈ [')', '}', '"', '`'] →
      Closes (c.skip n) (closing ++ [x]) c' v → Tail c'.rest := by
    intro n v closing x hx hcl
    have hrest : c.rest = c.rest.take n ++ (v ++ closing) ++ x :: c'.rest := by
      have hsplit := hcl.rest
      rw [Cursor.skip_rest] at hsplit
      conv_lhs => rw [← List.take_append_drop n c.rest, hsplit]
      simp
    exact h.after hrest hx
  cases hread with
  | quote hc _ hcl =>
    have hsplit := hcl.rest
    rw [Cursor.skip_rest, hc, (hnext hc).quote] at hsplit
    simp at hsplit
  | arith hc hcl => exact @hclosed 3 _ [')'] _ (by decide) hcl
  | command hc _ hcl => exact @hclosed 2 _ [] _ (by decide) hcl
  | brace hc hcl => exact @hclosed 2 _ [] _ (by decide) hcl
  | name hc hb =>
    rw [consumeIdentifier, Cursor.skip_rest]
    refine Tail.name ?_
    rw [Cursor.skip_rest, hc]
    exact hnext hc
  | @special b r hc hb hs =>
    rw [Cursor.skip_rest, hc]
    refine (hnext hc).plain ?_ ?_
    · rintro rfl
      cases hs
    · rintro rfl
      cases hs
  | lone hc _ =>
    rw [Cursor.skip_rest, hc]
    exact hnext hc

theorem Tail.wordPart {depth : Nat} {c c' : Text} (h : Tail c.rest)
    (hread : readWordPart depth c = .ok (marks, c')) : Tail c'.rest := by
  unfold readWordPart at hread
  split at hread
  · next r hr =>
    rw [hr] at h
    obtain ⟨c₁, h₁, -⟩ := bind_eq_ok.mp hread
    rcases consumeSingleQuoted_ok hr h₁ with ⟨v, -, hv, -⟩
    rw [h.quote] at hv
    rcases List.append_eq_nil_iff.mp hv.symm with ⟨-, hnil⟩
    cases hnil
  · next r hr => exact h.doubleQuoted (by rw [hr]; rfl) hread
  · next r hr =>
    obtain ⟨c₁, h₁, hread⟩ := bind_eq_ok.mp hread
    obtain ⟨-, rfl⟩ : Region.backtick.marks (c.skip 1) c₁ = marks ∧ c₁ = c' := by
      simpa using hread
    rcases consumeBacktick_ok hr h₁ with ⟨v, -, hv, -⟩
    rw [hr] at h
    exact (h.plain (by decide) (by decide)).after hv (by decide)
  · next r hr =>
    obtain ⟨-, rfl⟩ : [] = marks ∧ consumeBackslash c = c' := by simpa using hread
    exact h.backslash hr
  · next r hr =>
    unfold consumeWordDollar at hread
    split at hread
    · next hq =>
      refine Tail.doubleQuoted ?_ ?_ hread
      · rw [Cursor.skip_rest, hr]
        rw [hr] at h
        exact h.plain (by decide) (by decide)
      · exact hq.1
    · exact h.dollar (dollarAt_reads depth c marks c' r hr hread)
  · next hquote hdq hbt hslash hdollar =>
    obtain ⟨c₁, h₁, hread⟩ := bind_eq_ok.mp hread
    obtain ⟨-, rfl⟩ : [] = marks ∧ c₁ = c' := by simpa using hread
    have hskip : Tail (c.skip 1).rest := by
      rcases h.cases with hr | ⟨b, r, hr, -, -, hrest⟩ | ⟨l, r, hr, -⟩
      · exact absurd hr (hquote _)
      · rw [Cursor.skip_rest, hr]
        exact hrest
      · exact absurd hr (hslash _)
    unfold consumeWordPlain at h₁
    split at h₁
    · next b r hr =>
      split at h₁
      · rcases (consumeExtglob_returns _).of_ok h₁ with ⟨v, hv, -⟩
        have hrest : c.rest = b :: '(' :: v ++ ')' :: c₁.rest := by
          rw [Cursor.skip_rest, hr] at hv
          rw [hr]
          simpa using hv
        exact h.after hrest (by decide)
      · cases h₁
        exact hskip
    · cases h₁
      exact hskip

/-- The rest of a quoted text is never a whole number of words. -/
theorem Tail.word {depth n : Nat} {c c' : Text} (h : Tail c.rest)
    (hread : readWordLoop depth n c = .ok (marks, c')) : Tail c'.rest := by
  induction n generalizing c marks with
  | zero => simp [readWordLoop] at hread
  | succ n ih =>
    unfold readWordLoop at hread
    split at hread
    · obtain ⟨-, rfl⟩ : [] = marks ∧ c = c' := by simpa using hread
      exact h
    · split at hread
      · obtain ⟨-, rfl⟩ : [] = marks ∧ c = c' := by simpa using hread
        exact h
      · obtain ⟨⟨ms, c₁⟩, h₁, hread⟩ := bind_eq_ok.mp hread
        obtain ⟨⟨more, c₂⟩, h₂, hread⟩ := bind_eq_ok.mp hread
        obtain ⟨-, rfl⟩ : ms ++ more = marks ∧ c₂ = c' := by simpa using hread
        exact ih (h.wordPart h₁) h₂

theorem quote_not_mem_escapeChar {c : Char} (hc : c ≠ '\'') : '\'' ∉ escapeChar c := by
  unfold escapeChar
  cases hl : letters.lookup c with
  | some l =>
    have hall : ∀ e ∈ letters, e.1 ≠ '\'' → '\'' ∉ ['\\', e.2] :=
      List.all_iff_forall_prop.mp (by decide)
    exact hall (c, l) (lookup_eq_some hl) hc
  | none => simpa using Ne.symm hc

/-- The first quote of a text with one stands behind a backslash. -/
theorem tail_of_first_quote {t v r : List Char}
    (hsplit : t.flatMap escapeChar ++ ['\''] = v ++ '\'' :: r) (hv : '\'' ∉ v)
    (ht : '\'' ∈ t) : Tail r := by
  induction t generalizing v with
  | nil => cases ht
  | cons c t ih =>
    rw [List.flatMap_cons, List.append_assoc] at hsplit
    by_cases hc : c = '\''
    · subst hc
      rcases v with _ | ⟨d, _ | ⟨d', v⟩⟩
      · cases hsplit
      · exact ⟨t, (List.cons.inj (List.cons.inj hsplit).2).2.symm⟩
      · have hd : '\'' = d' := (List.cons.inj (List.cons.inj hsplit).2).1
        exact absurd (.tail _ (hd ▸ .head _)) hv
    · have hmem := (List.mem_cons.mp ht).resolve_left fun h => hc h.symm
      have hshorter : ∀ {u : List Char}, '\'' ∉ u →
          u ++ (t.flatMap escapeChar ++ ['\'']) = v ++ '\'' :: r → Tail r := by
        intro u hu heq
        rcases List.append_eq_append_iff.mp heq with ⟨m, hm, hrest⟩ | ⟨m, hm, hrest⟩
        · refine ih hrest (fun h => hv ?_) hmem
          rw [hm]
          exact List.mem_append_right _ h
        · rcases m with _ | ⟨d, m⟩
          · exact ih (v := []) hrest.symm List.not_mem_nil hmem
          · rw [hm, ← (List.cons.inj hrest).1] at hu
            exact absurd (List.mem_append_right _ (.head _)) hu
      exact hshorter (quote_not_mem_escapeChar hc) hsplit

theorem isOneWord_of_isWord {ps : List Piece} (h : IsWord ps) : IsOneWord (bytesOf ps) := by
  rcases @nextToken_word (bytesOf ps) 0 ps [] [] h (.inl rfl) (by simp)
    ⟨fun b hb => absurd hb (by simp), fun hb => absurd hb (by simp)⟩ with ⟨marks, htoken⟩
  refine ⟨_, htoken, ⟨_, rfl⟩, ?_⟩
  simp [wordToken]

/-- A quoted text is one word exactly when there is no quote in it. -/
theorem isOneWord_quoted_iff (t : List Char) :
    IsOneWord ('$' :: '\'' :: (t.flatMap escapeChar ++ ['\''])) ↔ '\'' ∉ t := by
  generalize hsrc : '$' :: '\'' :: (t.flatMap escapeChar ++ ['\'']) = src
  have hread : nextToken (lexerAt src 0) = readWord (lexerAt src 0) ⟨0, src⟩ := by
    rw [← hsrc]
    exact @nextToken_readWord _ 0 [] '$' _ (by decide) (by decide)
      (fun h => absurd h (by decide)) (.inl rfl) rfl
  have hword : ∀ c : Text, c.rest = src → consumeWordDollar 0 c = dollarAt 0 c := by
    intro c hc
    rw [consumeWordDollar, hc, ← hsrc, if_neg]
    rintro ⟨h, -⟩
    cases h
  constructor
  · rintro ⟨lexed, htoken, -, hspan⟩ hquote
    rw [hread] at htoken
    obtain ⟨⟨marks, c'⟩, hloop, htoken⟩ := bind_eq_ok.mp htoken
    have hreach := ((readWordLoop_returns _ _ _).of_ok hloop).1
    have htail : Tail c'.rest := by
      unfold readWordLoop at hloop
      rw [← hsrc] at hloop
      obtain ⟨⟨ms, c₁⟩, h₁, hloop⟩ := bind_eq_ok.mp hloop
      obtain ⟨⟨more, c₂⟩, h₂, hloop⟩ := bind_eq_ok.mp hloop
      obtain ⟨-, rfl⟩ : ms ++ more = marks ∧ c₂ = c' := by simpa using hloop
      have hdollar : dollarAt 0 ⟨0, '$' :: '\'' :: (t.flatMap escapeChar ++ ['\''])⟩ =
          .ok (ms, c₁) := h₁
      refine Tail.word ?_ h₂
      cases dollarAt_reads 0 _ _ _ _ rfl hdollar with
      | quote hc hv hcl =>
        refine tail_of_first_quote ?_ hv hquote
        simpa using hcl.rest
      | arith hc => cases hc
      | command hc => cases hc
      | brace hc => cases hc
      | name hc hb =>
        cases hc
        cases hb
      | special hc hb hs =>
        cases hc
        cases hs
      | lone hc hr =>
        cases hc
        exact absurd rfl (hr _ rfl).1
    -- So the word ends before the text does.
    have hlen := hreach.pos_add_length
    have hpos : c'.pos = src.length := by
      obtain rfl : _ = lexed := Except.ok.inj htoken
      exact congrArg Span.stop hspan
    rcases htail with ⟨u, hu⟩
    rw [hpos, hu] at hlen
    simp at hlen
  · intro hquote
    have hin : '\'' ∉ t.flatMap escapeChar := by
      intro hmem
      rcases List.mem_flatMap.mp hmem with ⟨c, hc, hmem⟩
      refine quote_not_mem_escapeChar ?_ hmem
      rintro rfl
      exact hquote hc
    have hquoted : consumeSingleQuoted ⟨1, '\'' :: (t.flatMap escapeChar ++ ['\''])⟩ =
        .ok ⟨src.length, []⟩ := by
      have hloop := singleQuotedLoop_quoted 1 2 (t.flatMap escapeChar) [] hin
      rw [← hsrc]
      simp only [List.length_cons, List.length_append, List.length_nil]
      rw [show (t.flatMap escapeChar).length + (0 + 1) + 1 + 1 =
        2 + (t.flatMap escapeChar).length + 1 by omega]
      exact hloop
    have hdollar : dollarAt 0 ⟨0, src⟩ =
        .ok (Region.singleQuoted.marks ⟨2, t.flatMap escapeChar ++ ['\'']⟩ ⟨src.length, []⟩,
          ⟨src.length, []⟩) := by
      rw [← hsrc] at hquoted ⊢
      simp only [dollarAt, consumeDollar, consumeDollarBody, Cursor.skip, List.drop_succ_cons,
        List.drop_zero, Nat.zero_add, hquoted]
      rfl
    have hpart : readWordPart 0 ⟨0, src⟩ = dollarAt 0 ⟨0, src⟩ := by
      rw [← hword ⟨0, src⟩ rfl, ← hsrc]
      rfl
    have hloop : ∃ marks, readWordLoop 0 (src.length + 1) ⟨0, src⟩ =
        .ok (marks, ⟨src.length, []⟩) := by
      obtain ⟨ms, hdollar⟩ : ∃ ms, dollarAt 0 ⟨0, src⟩ = .ok (ms, ⟨src.length, []⟩) :=
        ⟨_, hdollar⟩
      refine ⟨ms ++ [], ?_⟩
      have hlen : src.length = (t.flatMap escapeChar).length + 2 + 1 := by simp [← hsrc]
      rw [hlen] at hdollar ⊢
      rw [readWordLoop]
      simp only [← hsrc] at hpart hdollar ⊢
      rw [if_neg (by decide), hpart, hdollar]
      rfl
    rcases hloop with ⟨marks, hloop⟩
    refine ⟨⟨makeWordToken ⟨0, src⟩ ⟨src.length, []⟩, marks,
      (lexerAt src 0).moveTo ⟨src.length, []⟩⟩, ?_, ?_, rfl⟩
    · rw [hread]
      simp only [readWord]
      rw [show (lexerAt src 0).substDepth = 0 from rfl, hloop]
      rfl
    · have htoken := @makeWordToken_eq 0 src []
        (by rw [← hsrc]; simp) (by rw [← hsrc]; simp)
      rw [List.append_nil, Nat.zero_add] at htoken
      exact ⟨_, congrArg Token.kind htoken⟩

theorem inert_of_not_mem (h : ∀ c ∈ ['{', '~', '*', '?', '[', '('], c ∉ t) :
    IsInertAnywhere t where
  tilde := by
    rcases t with _ | ⟨c, t⟩
    · rfl
    · have hc : c ≠ '~' := by
        rintro rfl
        exact h '~' (by decide) (.head _)
      simp [isTildeText, hc]
  braces := by
    have hnone := findBracePairFrom_eq_none (h '{' (by decide)) none 0 0
    rw [openPair, List.map_id, findBracePair, hnone]
  pathname := by
    intro o
    simp [isGlobPattern, h '*' (by decide), h '?' (by decide), h '[' (by decide),
      hasExtglobPattern_of_not_mem (h '(' (by decide))]

theorem roundTrips_nil : RoundTrips [] := by
  have hsrc : Utf8.encode (shellQuote []) = bytesOf (quotedPieces [] []) := encode_quoteText []
  rw [RoundTrips, hsrc]
  constructor
  · exact isOneWord_of_isWord (isWord_quotedPieces [])
  · intro x fs depth s
    exact expandArgv_of_expandTo (by simp) (.cons (expandsTo_quoted (.inl rfl)) .nil)
      (.inr (by simp [maxGlobResults]))

theorem roundTrips_bare (hne : t ≠ []) (hbare : t.all isBare = true) :
    RoundTrips t := by
  have htext := isPlainText_of_bare hne hbare
  have hsrc : Utf8.encode (shellQuote t) = bytesOf (plainPieces t) := by
    rw [shellQuote, if_neg hne, if_pos hbare, bytesOf_plainPieces,
      Utf8.encode_of_ascii htext.ascii]
  rw [RoundTrips, hsrc]
  constructor
  · exact isOneWord_of_isWord htext.isWord
  · intro x fs depth s
    rw [wordOf_plainPieces htext]
    exact expandArgv_inert (inert_of_not_mem fun c hc =>
      not_mem_of_bare hbare c (List.mem_append_left ['\''] hc))

theorem encode_quoted_of_ascii (hascii : ∀ c ∈ t, c.toNat < 0x80) :
    Utf8.encode ('$' :: '\'' :: (t.flatMap escapeChar ++ ['\''])) =
      '$' :: '\'' :: (t.flatMap escapeChar ++ ['\'']) := by
  apply Utf8.encode_of_ascii
  intro b hb
  simp only [List.mem_cons, List.mem_append, List.mem_flatMap, List.not_mem_nil, or_false] at hb
  rcases hb with rfl | rfl | ⟨c, hc, hb⟩ | rfl
  · decide
  · decide
  · rcases escapeChar_cases c with ⟨hone, -⟩ | ⟨l, hone, hl⟩
    · rw [hone] at hb
      exact List.mem_singleton.mp hb ▸ hascii c hc
    · have hall : ∀ l ∈ letters.map Prod.snd, l.toNat < 0x80 :=
        List.all_iff_forall_prop.mp (by decide)
      rw [hone] at hb
      rcases List.mem_cons.mp hb with rfl | hb
      · decide
      · exact List.mem_singleton.mp hb ▸ hall l hl
  · decide

/-- **`printf %q`.**  What it prints for a text is one word that gives the text back exactly
    when the text is ASCII, has no single quote, and would stay as it is without quotes. -/
theorem roundTrips_iff (t : List Char) : RoundTrips t ↔
    (∀ c ∈ t, c.toNat < 0x80) ∧ '\'' ∉ t ∧ IsInertAnywhere t := by
  by_cases hne : t = []
  · subst hne
    refine iff_of_true roundTrips_nil ⟨?_, List.not_mem_nil, ?_⟩
    · intro c hc
      cases hc
    · exact inert_of_not_mem fun c _ => List.not_mem_nil
  · by_cases hbare : t.all isBare = true
    · refine iff_of_true (roundTrips_bare hne hbare) ⟨?_, ?_, ?_⟩
      · exact (isPlainText_of_bare hne hbare).ascii
      · exact not_mem_of_bare hbare '\'' (by decide)
      · exact inert_of_not_mem fun c hc => not_mem_of_bare hbare c (List.mem_append_left ['\''] hc)
    · rw [RoundTrips, shellQuote, if_neg hne, if_neg hbare]
      constructor
      · rintro ⟨hword, hexpand⟩
        rw [ExpandsBack, wordOf_quoted] at hexpand
        rcases inert_of_expandArgv hexpand with ⟨hascii, hinert⟩
        rw [encode_quoted_of_ascii hascii] at hword
        exact ⟨hascii, (isOneWord_quoted_iff t).mp hword, hinert⟩
      · rintro ⟨hascii, hquote, hinert⟩
        constructor
        · rw [encode_quoted_of_ascii hascii]
          exact (isOneWord_quoted_iff t).mpr hquote
        · rw [ExpandsBack, wordOf_quoted, Utf8.encode_of_ascii hascii]
          intro x fs depth s
          exact expandArgv_inert hinert

/-- `$'*'` becomes the name of a file. -/
theorem star_is_expanded : ¬ ∀ t, RoundTrips t := by
  intro h
  have hstar := (h ['*']).2 .empty ⟨fun _ => some [['a']], fun _ => false⟩ 0 ShellState.new
  exact absurd (congrArg Prod.snd hstar) (by decide +kernel)

end Wasmsh.ShellQuote

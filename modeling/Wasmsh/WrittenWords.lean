import Wasmsh.Parser

/-!
# Words as they are written

A word is often written by a program: the name of a file between quotes, an argument
behind the value of an alias.  Here a written word is a list of pieces (a byte that means
nothing to the shell, text between single quotes, an escaped quote), and its bytes are read
back by the lexer as one word token and by the word parser as the parts of the pieces.
-/

open Wasmsh.Lex Wasmsh.WordParser

namespace Wasmsh

/-- A byte that neither the lexer nor the word parser treats specially. -/
def isPlainByte (b : Char) : Bool :=
  !isWordBreak b && !(['\'', '"', '`', '\\', '$'].contains b)

theorem isPlainByte_of_not_ascii {b : Char} (hb : 0x80 ≤ b.toNat) : isPlainByte b = true := by
  have hne : ∀ c : Char, c.toNat < 0x80 → (b == c) = false := by
    intro c hc
    rw [beq_eq_false_iff_ne]
    rintro rfl
    omega
  have hbreak : isWordBreak b = false := by
    simp only [isWordBreak, List.contains_cons, List.contains_nil, Bool.or_false]
    simp [hne]
  simp only [isPlainByte, hbreak, List.contains_cons, List.contains_nil, Bool.or_false]
  simp [hne]

/-- A piece of a written word. -/
inductive Piece where
  /-- A byte outside quotes. -/
  | plain (b : Char)
  /-- Text between single quotes. -/
  | quoted (t : List Char)
  /-- A quote outside quotes, escaped. -/
  | quote
  deriving DecidableEq, Repr

namespace Piece

def bytes : Piece → List Char
  | plain b => [b]
  | quoted t => '\'' :: t ++ ['\'']
  | quote => ['\\', '\'']

def WellFormed : Piece → Prop
  | plain b => isPlainByte b
  | quoted t => '\'' ∉ t
  | quote => True

end Piece

/-- The bytes of a written word. -/
def bytesOf (ps : List Piece) : List Char := ps.flatMap Piece.bytes

@[simp] theorem bytesOf_nil : bytesOf [] = [] := rfl

@[simp] theorem bytesOf_cons (p : Piece) (ps : List Piece) :
    bytesOf (p :: ps) = p.bytes ++ bytesOf ps := rfl

/-! ## 1. The lexer -/

theorem ne_of_isPlainByte {b c : Char} (hb : isPlainByte b) (hc : isPlainByte c = false) :
    b ≠ c := by
  rintro rfl
  rw [hb] at hc
  cases hc

theorem singleQuotedLoop_quoted (start pos : Nat) (t rest : List Char) (ht : '\'' ∉ t) :
    singleQuotedLoop start pos (t ++ '\'' :: rest) = .ok ⟨pos + t.length + 1, rest⟩ := by
  induction t generalizing pos with
  | nil => rfl
  | cons b t ih =>
    simp only [List.mem_cons, not_or] at ht
    have hpos : pos + 1 + t.length + 1 = pos + (t.length + 1) + 1 := by omega
    rw [List.cons_append, singleQuotedLoop.eq_3 _ _ _ _ fun h => ht.1 h.symm, ih _ ht.2,
      List.length_cons, hpos]

/-- The lexer passes a plain byte, unless it is the operator of an extended pattern. -/
theorem readWordPart_plain {depth pos : Nat} {b : Char} {rest : List Char} (hb : isPlainByte b)
    (hrest : rest.head? = some '(' → isExtglobOperator b = false) :
    readWordPart depth ⟨pos, b :: rest⟩ = .ok ([], ⟨pos + 1, rest⟩) := by
  have h₁ : b ≠ '\'' := ne_of_isPlainByte hb (by decide)
  have h₂ : b ≠ '"' := ne_of_isPlainByte hb (by decide)
  have h₃ : b ≠ '`' := ne_of_isPlainByte hb (by decide)
  have h₄ : b ≠ '\\' := ne_of_isPlainByte hb (by decide)
  have h₅ : b ≠ '$' := ne_of_isPlainByte hb (by decide)
  have hplain : consumeWordPlain ⟨pos, b :: rest⟩ = .ok ⟨pos + 1, rest⟩ := by
    unfold consumeWordPlain
    dsimp only
    split
    · next h =>
      injection h with hb' hrest'
      subst hb' hrest'
      simp [hrest rfl, Scanning.Cursor.skip]
    · rfl
  unfold readWordPart
  dsimp only
  split
  · next h => exact absurd (List.cons.inj h).1 h₁
  · next h => exact absurd (List.cons.inj h).1 h₂
  · next h => exact absurd (List.cons.inj h).1 h₃
  · next h => exact absurd (List.cons.inj h).1 h₄
  · next h => exact absurd (List.cons.inj h).1 h₅
  · rw [hplain]
    rfl

theorem readWordPart_piece (depth pos : Nat) {p : Piece} {rest : List Char} (hp : p.WellFormed)
    (hrest : rest.head? = some '(' → ∀ b, p = .plain b → isExtglobOperator b = false) :
    ∃ marks, readWordPart depth ⟨pos, p.bytes ++ rest⟩ =
      .ok (marks, ⟨pos + p.bytes.length, rest⟩) := by
  cases p with
  | plain b =>
    exact ⟨[], readWordPart_plain hp fun h => hrest h b rfl⟩
  | quoted t =>
    have hloop := singleQuotedLoop_quoted pos (pos + 1) t rest hp
    simp only [Piece.bytes, List.cons_append, List.append_assoc, List.nil_append,
      List.length_cons, List.length_append, List.length_nil]
    simp only [readWordPart, consumeSingleQuoted, List.drop_succ_cons, List.drop_zero, hloop]
    refine ⟨_, congrArg Except.ok (Prod.ext rfl ?_)⟩
    simp only [Scanning.Cursor.mk.injEq, and_true]
    omega
  | quote => exact ⟨[], rfl⟩

/-- The byte a piece starts with. -/
theorem Piece.bytes_eq_cons {p : Piece} (hp : p.WellFormed) :
    ∃ b r, p.bytes = b :: r ∧ isWordBreak b = false := by
  cases p with
  | plain b =>
    refine ⟨b, [], rfl, ?_⟩
    simp only [Piece.WellFormed, isPlainByte, Bool.and_eq_true, Bool.not_eq_true'] at hp
    exact hp.1
  | quoted t => exact ⟨'\'', t ++ ['\''], rfl, by decide⟩
  | quote => exact ⟨'\\', ['\''], rfl, by decide⟩

/-- What may follow a written word: a byte that ends words, and a parenthesis only where
    the word does not end in the operator of an extended pattern. -/
def EndsWord (ps : List Piece) (rest : List Char) : Prop :=
  (∀ b ∈ rest.head?, isWordBreak b) ∧
    (rest.head? = some '(' → ∀ b, ps.getLast? = some (.plain b) → isExtglobOperator b = false)

theorem EndsWord.tail {p p' : Piece} {ps : List Piece} {rest : List Char}
    (h : EndsWord (p :: p' :: ps) rest) : EndsWord (p' :: ps) rest :=
  ⟨h.1, fun hr b hb => h.2 hr b (by rwa [List.getLast?_cons_cons])⟩

theorem head?_bytesOf_append {p : Piece} {ps : List Piece} {rest : List Char}
    (hp : p.WellFormed) : (bytesOf (p :: ps) ++ rest).head? ≠ some '(' := by
  rcases Piece.bytes_eq_cons hp with ⟨b, r, hb, hbreak⟩
  simp only [bytesOf_cons, hb, List.cons_append, List.head?_cons, ne_eq, Option.some.injEq]
  rintro rfl
  cases hbreak

/-- The lexer's word loop reads a written word up to its end. -/
theorem readWordLoop_bytesOf (depth : Nat) (ps : List Piece) (hps : ∀ p ∈ ps, p.WellFormed)
    {rest : List Char} (hrest : EndsWord ps rest) (n pos : Nat) (hn : ps.length < n) :
    ∃ marks, readWordLoop depth n ⟨pos, bytesOf ps ++ rest⟩ =
      .ok (marks, ⟨pos + (bytesOf ps).length, rest⟩) := by
  induction ps generalizing n pos with
  | nil =>
    rcases n with _ | n
    · cases hn
    refine ⟨[], ?_⟩
    cases rest with
    | nil => rfl
    | cons b rest =>
      have hb : isWordBreak b = true := hrest.1 b rfl
      simp only [bytesOf_nil, List.nil_append, readWordLoop, hb, if_true, List.length_nil,
        Nat.add_zero]
  | cons p ps ih =>
    rcases n with _ | n
    · cases hn
    have hp := hps p (.head _)
    have hnext : (bytesOf ps ++ rest).head? = some '(' →
        ∀ b, p = .plain b → isExtglobOperator b = false := by
      cases ps with
      | nil => exact fun h b hb => hrest.2 h b (by rw [hb]; rfl)
      | cons p' ps =>
        exact fun h => absurd h (head?_bytesOf_append (hps p' (.tail _ (.head _))))
    rcases readWordPart_piece depth pos hp hnext with ⟨marks, hpart⟩
    have htail : EndsWord ps rest := by
      cases ps with
      | nil => exact ⟨hrest.1, fun _ b hb => by cases hb⟩
      | cons p' ps => exact hrest.tail
    rcases ih (fun q hq => hps q (.tail _ hq)) htail n (pos + p.bytes.length)
      (Nat.lt_of_succ_lt_succ hn) with ⟨more, hmore⟩
    refine ⟨marks ++ more, ?_⟩
    rcases Piece.bytes_eq_cons hp with ⟨b, r, hb, hbreak⟩
    rw [bytesOf_cons, List.append_assoc]
    unfold readWordLoop
    rw [hpart]
    simp only [hb, List.cons_append, hbreak, Bool.false_eq_true, if_false]
    simp only [bind, Except.bind, pure, Except.pure]
    rw [← hb, hmore]
    simp only [hb, List.length_cons, List.length_append, Nat.add_assoc, Nat.add_comm 1]

/-- A written word that the lexer takes for a word token: it is not empty, does not start
    a comment, and is not one of the tokens of the extended test. -/
structure IsWord (ps : List Piece) : Prop where
  wellFormed : ∀ p ∈ ps, p.WellFormed
  ne_nil : ps ≠ []
  no_comment : ps.head? ≠ some (.plain '#')
  no_open : bytesOf ps ≠ ['[', '[']
  no_close : bytesOf ps ≠ [']', ']']

/-- The lexer at an offset of a source, outside substitutions. -/
def lexerAt (src : List Char) (pos : Nat) : Lexer := ⟨src, pos, .normal, 0⟩

/-- The token of a written word that starts at an offset. -/
def wordToken (start : Nat) (text : List Char) : Token :=
  let isPlain := !text.contains '\'' && !text.contains '"' && !text.contains '\\'
    && !text.contains '$'
  ⟨.word (isPlain && isReservedWord text), ⟨start, start + text.length⟩⟩

theorem makeWordToken_eq {pos : Nat} {text rest : List Char} (hopen : text ≠ ['[', '['])
    (hclose : text ≠ [']', ']']) :
    makeWordToken ⟨pos, text ++ rest⟩ ⟨pos + text.length, rest⟩ = wordToken pos text := by
  have hslice : Scanning.Cursor.slice ⟨pos, text ++ rest⟩ ⟨pos + text.length, rest⟩ = text := by
    simp [Scanning.Cursor.slice]
  have hkind : ∀ isPlain, plainWordTokenKind text isPlain = none := by
    intro isPlain
    simp [plainWordTokenKind, hopen, hclose]
  simp only [makeWordToken, hslice, hkind, Option.getD_none, wordToken, spanFrom]

/-- The bytes of a word at which the lexer starts it. -/
theorem IsWord.bytes_eq_cons {ps : List Piece} (h : IsWord ps) :
    ∃ b r, bytesOf ps = b :: r ∧ isWordBreak b = false ∧ b ≠ '#' ∧
      (b = '\\' → r.head? = some '\'') := by
  cases ps with
  | nil => exact absurd rfl h.ne_nil
  | cons p ps =>
    have hp := h.wellFormed p (.head _)
    cases p with
    | plain b =>
      refine ⟨b, bytesOf ps, rfl, ?_, ?_, ?_⟩
      · simp only [Piece.WellFormed, isPlainByte, Bool.and_eq_true, Bool.not_eq_true'] at hp
        exact hp.1
      · rintro rfl
        exact h.no_comment rfl
      · intro hb
        exact absurd hb (ne_of_isPlainByte hp (by decide))
    | quoted t => exact ⟨'\'', _, rfl, by decide, by decide, fun h => absurd h (by decide)⟩
    | quote => exact ⟨'\\', '\'' :: bytesOf ps, rfl, by decide, by decide, fun _ => rfl⟩

/-- The lexer skips nothing at a byte that starts a word. -/
theorem skipBlanksLoop_start {b : Char} {r : List Char} (hbreak : isWordBreak b = false)
    (hescape : b = '\\' → r.head? = some '\'') (pos : Nat) :
    skipBlanksLoop pos (b :: r) = ⟨pos, b :: r⟩ := by
  rw [skipBlanksLoop.eq_def]
  split
  · next heq =>
    injection heq with hb'
    subst hb'
    cases hbreak
  · next heq =>
    injection heq with hb'
    subst hb'
    cases hbreak
  · next heq =>
    injection heq with hb' hr
    subst hb' hr
    have hhead := hescape rfl
    cases hhead
  · next heq =>
    injection heq with hb' hr
    subst hb' hr
    have hhead := hescape rfl
    cases hhead
  · rfl

/-- A lexer that stands, after blanks, before a byte that starts a word reads the word. -/
theorem nextToken_readWord {src : List Char} {pos : Nat} {blank : List Char} {b : Char}
    {r : List Char} (hbreak : isWordBreak b = false) (hcomment : b ≠ '#')
    (hescape : b = '\\' → r.head? = some '\'') (hblank : blank = [] ∨ blank = [' '])
    (hsrc : src.drop pos = blank ++ b :: r) :
    nextToken (lexerAt src pos) = readWord (lexerAt src pos) ⟨pos + blank.length, b :: r⟩ := by
  have hskip : skipBlanks (lexerAt src pos).cursor = ⟨pos + blank.length, b :: r⟩ := by
    simp only [skipBlanks, Lexer.cursor, lexerAt, hsrc]
    rcases hblank with rfl | rfl
    · exact skipBlanksLoop_start hbreak hescape pos
    · exact skipBlanksLoop_start hbreak hescape (pos + 1)
  have hne : ∀ c, isWordBreak c = true → b ≠ c := by
    rintro c hc rfl
    rw [hc] at hbreak
    cases hbreak
  show nextNormalToken 2 (lexerAt src pos) = _
  rw [nextNormalToken, hskip]
  dsimp only
  split
  · next h => cases h
  · next h => exact absurd (List.cons.inj h).1 (hne '\n' (by decide))
  · next h => exact absurd (List.cons.inj h).1 (hne ';' (by decide))
  · next h => exact absurd (List.cons.inj h).1 (hne '(' (by decide))
  · next h => exact absurd (List.cons.inj h).1 (hne ')' (by decide))
  · next h => exact absurd (List.cons.inj h).1 hcomment
  · next h => exact absurd (List.cons.inj h).1 (hne '&' (by decide))
  · next h => exact absurd (List.cons.inj h).1 (hne '|' (by decide))
  · next h => exact absurd (List.cons.inj h).1 (hne '>' (by decide))
  · next h => exact absurd (List.cons.inj h).1 (hne '<' (by decide))
  · rfl

/-- The loop has enough turns for a written word. -/
theorem length_le_bytesOf (ps : List Piece) (hps : ∀ p ∈ ps, p.WellFormed) :
    ps.length ≤ (bytesOf ps).length := by
  induction ps with
  | nil => exact Nat.le_refl 0
  | cons p ps ih =>
    rcases Piece.bytes_eq_cons (hps p (.head _)) with ⟨b, r, hb, -⟩
    have hle := ih fun q hq => hps q (.tail _ hq)
    simp only [bytesOf_cons, hb, List.length_cons, List.length_append]
    omega

/-- The next token of a lexer that stands, after blanks, before a written word. -/
theorem nextToken_word {src : List Char} {pos : Nat} {ps : List Piece} {blank rest : List Char}
    (hword : IsWord ps) (hblank : blank = [] ∨ blank = [' '])
    (hsrc : src.drop pos = blank ++ bytesOf ps ++ rest) (hrest : EndsWord ps rest) :
    ∃ marks, nextToken (lexerAt src pos) =
      .ok ⟨wordToken (pos + blank.length) (bytesOf ps), marks,
        lexerAt src (pos + blank.length + (bytesOf ps).length)⟩ := by
  rcases hword.bytes_eq_cons with ⟨b, r, hb, hbreak, hcomment, hescape⟩
  have hlen : ps.length < (bytesOf ps ++ rest).length + 1 := by
    have hle := length_le_bytesOf ps hword.wellFormed
    rw [List.length_append]
    omega
  rcases readWordLoop_bytesOf 0 ps hword.wellFormed hrest
    ((bytesOf ps ++ rest).length + 1) (pos + blank.length) hlen with ⟨marks, hloop⟩
  refine ⟨marks, ?_⟩
  have hread : readWord (lexerAt src pos) ⟨pos + blank.length, bytesOf ps ++ rest⟩ =
      .ok ⟨wordToken (pos + blank.length) (bytesOf ps), marks,
        lexerAt src (pos + blank.length + (bytesOf ps).length)⟩ := by
    simp only [readWord]
    rw [show (lexerAt src pos).substDepth = 0 from rfl, hloop]
    simp only [bind, Except.bind, pure, Except.pure]
    rw [makeWordToken_eq hword.no_open hword.no_close]
    rfl
  have hstart : src.drop pos = blank ++ b :: (r ++ rest) := by
    rw [hsrc, hb, List.append_assoc, List.cons_append]
  have hescape' : b = '\\' → (r ++ rest).head? = some '\'' := by
    intro h
    rw [List.head?_append, hescape h]
    rfl
  rw [← hread, hb, List.cons_append]
  exact nextToken_readWord hbreak hcomment hescape' hblank hstart

/-- At the end of the source every further token is the end. -/
theorem nextToken_eof {src : List Char} {pos : Nat} (hsrc : src.drop pos = []) :
    nextToken (lexerAt src pos) = .ok ⟨⟨.eof, ⟨pos, pos⟩⟩, [], lexerAt src pos⟩ := by
  have hskip : skipBlanks (lexerAt src pos).cursor = ⟨pos, []⟩ := by
    simp only [skipBlanks, Lexer.cursor, lexerAt, hsrc, skipBlanksLoop]
  show nextNormalToken 2 (lexerAt src pos) = _
  simp only [nextNormalToken, hskip]
  rfl

/-! ## 2. The word parser -/

/-- The parts of a written word, after literal text that is not yet a part. -/
def partsFrom (lit : List Char) : List Piece → List WordPart
  | [] => flush lit
  | .plain b :: ps => partsFrom (lit ++ [b]) ps
  | .quoted t :: ps => flush lit ++ .singleQuoted t :: partsFrom [] ps
  | .quote :: ps => partsFrom (lit ++ ['\'']) ps

theorem parseSingleQuoted_quoted {pos : Nat} {t rest : List Char} (ht : '\'' ∉ t) :
    parseSingleQuoted ⟨pos, t ++ '\'' :: rest⟩ = ⟨t, ⟨pos + (t.length + 1), rest⟩, true⟩ := by
  have htake : (t ++ '\'' :: rest).takeWhile (· != '\'') = t := by
    rw [List.takeWhile_append_of_pos]
    · simp
    · intro b hb
      simp only [bne_iff_ne]
      rintro rfl
      exact ht hb
  simp only [parseSingleQuoted, htake, List.drop_left, Scanning.Cursor.skip]
  rw [List.drop_append]
  simp

theorem parseWordPart_plain {pos : Nat} {b : Char} {lit rest : List Char} (hb : isPlainByte b) :
    parseWordPart lit ⟨pos, b :: rest⟩ = ⟨lit ++ [b], [], [], ⟨pos + 1, rest⟩⟩ := by
  have h₁ : b ≠ '\'' := ne_of_isPlainByte hb (by decide)
  have h₂ : b ≠ '"' := ne_of_isPlainByte hb (by decide)
  have h₃ : b ≠ '`' := ne_of_isPlainByte hb (by decide)
  have h₄ : b ≠ '\\' := ne_of_isPlainByte hb (by decide)
  have h₅ : b ≠ '$' := ne_of_isPlainByte hb (by decide)
  have h₆ : b ≠ '<' := ne_of_isPlainByte hb (by decide)
  have h₇ : b ≠ '>' := ne_of_isPlainByte hb (by decide)
  unfold parseWordPart
  dsimp only
  split
  · next h => exact absurd (List.cons.inj h).1 h₁
  · next h => exact absurd (List.cons.inj h).1 h₂
  · next h => exact absurd (List.cons.inj h).1 h₄
  · next h => exact absurd (List.cons.inj h).1 h₅
  · next h => exact absurd (List.cons.inj h).1 h₃
  · next h => exact absurd (List.cons.inj h).1 h₆
  · next h => exact absurd (List.cons.inj h).1 h₇
  · next h =>
    rcases List.cons.inj h with ⟨rfl, rfl⟩
    rfl
  · next h => cases h

theorem parseWordLoop_bytesOf (ps : List Piece) (hps : ∀ p ∈ ps, p.WellFormed) (lit : List Char)
    (n pos : Nat) (hn : (bytesOf ps).length ≤ n) :
    (parseWordLoop n lit ⟨pos, bytesOf ps⟩).parts = partsFrom lit ps := by
  induction ps generalizing lit n pos with
  | nil => cases n <;> rfl
  | cons p ps ih =>
    have hp := hps p (.head _)
    have hps' : ∀ q ∈ ps, q.WellFormed := fun q hq => hps q (.tail _ hq)
    rcases n with _ | n
    · rcases Piece.bytes_eq_cons hp with ⟨b, r, hb, -⟩
      simp [hb] at hn
    cases p with
    | plain b =>
      simp only [bytesOf_cons, Piece.bytes, List.cons_append, List.nil_append,
        List.length_cons] at hn ⊢
      rw [parseWordLoop]
      simp only [parseWordPart_plain hp]
      exact ih hps' (lit ++ [b]) n (pos + 1) (by omega)
    | quoted t =>
      have hbytes : bytesOf (.quoted t :: ps) = '\'' :: (t ++ '\'' :: bytesOf ps) := by
        simp [Piece.bytes]
      rw [hbytes] at hn ⊢
      simp only [List.length_cons, List.length_append] at hn
      rw [parseWordLoop]
      simp only [parseWordPart, parseSingleQuotedPart, Scanning.Cursor.skip, List.drop_succ_cons,
        List.drop_zero, parseSingleQuoted_quoted hp]
      rw [ih hps' [] n _ (by omega)]
      simp [partsFrom]
    | quote =>
      have hbytes : bytesOf (.quote :: ps) = '\\' :: '\'' :: bytesOf ps := rfl
      rw [hbytes] at hn ⊢
      simp only [List.length_cons] at hn
      rw [parseWordLoop]
      simp only [parseWordPart, parseEscapedLiteral]
      exact ih hps' (lit ++ ['\'']) n (pos + 2) (by omega)

/-- A written word is read back as the parts of its pieces. -/
theorem parseWordParts_bytesOf {ps : List Piece} (hps : ∀ p ∈ ps, p.WellFormed) :
    (parseWordParts 0 (bytesOf ps)).parts = partsFrom [] ps :=
  parseWordLoop_bytesOf ps hps [] (bytesOf ps).length 0 (Nat.le_refl _)

end Wasmsh

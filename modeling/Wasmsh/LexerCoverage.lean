import Wasmsh.LexerBounds
import Wasmsh.Library.Utf8

/-!
# What the tokens of a source leave out

`tokenize_all` of `wasmsh-lex/src/lib.rs`.  The spans of its tokens lie in the source one behind
the other, and what is between them is blanks, continued lines and comments.

A comment starts behind a word only where the word is a process substitution: this is a token
of its own, so a `#` directly behind it is at the start of the next one.
-/

namespace Wasmsh.Lex

open Scanning

variable {source r : List Char} {lx : Lexer} {out : Lexed} {c : Text} {ts : List Token} {p : Nat}
variable {b : Char}

/-! ## 1. All tokens of a source -/

/-- The loop of `tokenize_all`. -/
def tokenizeLoop : Nat → Lexer → Scan (List Token)
  | 0, _ => .error .outOfFuel
  | n + 1, lx => do
      let out ← nextToken lx
      if out.token.kind = .eof then return []
      else return out.token :: (← tokenizeLoop n out.lexer)

/-- `tokenize`. -/
def tokenize (source : List Char) : Scan (List Token) :=
  tokenizeLoop (source.length + 1) (.new source)

/-! ## 2. What is between tokens -/

/-- The byte `i` is one of the token. -/
def Token.Covers (t : Token) (i : Nat) : Prop := t.span.start ≤ i ∧ i < t.span.stop

/-- The byte `i` is of no token. -/
def Outside (tokens : List Token) (i : Nat) : Prop := ∀ t ∈ tokens, ¬ t.Covers i

/-- The tokens that are words. -/
def TokenKind.isWord : TokenKind → Bool
  | .word _ => true
  | .dblLBracket => true
  | .dblRBracket => true
  | _ => false

/-- The byte `i` is one of a word. -/
def WordByte (tokens : List Token) (i : Nat) : Prop :=
  ∃ t ∈ tokens, t.kind.isWord = true ∧ t.Covers i

/-- The bytes from `p` to `q` are a blank, a continued line or a comment up to the end of its
    line. -/
inductive Filler (source : List Char) : Nat → Nat → Prop where
  | blank {p : Nat} {b : Char} {r : List Char} (h : source.drop p = b :: r)
      (hb : b = ' ' ∨ b = '\t') : Filler source p (p + 1)
  | continuation {p : Nat} {r : List Char} (h : source.drop p = '\\' :: '\n' :: r) :
      Filler source p (p + 2)
  | carriage {p : Nat} {r : List Char} (h : source.drop p = '\\' :: '\r' :: '\n' :: r) :
      Filler source p (p + 3)
  | comment {p : Nat} {text r : List Char} (h : source.drop p = '#' :: text ++ r)
      (hline : '\n' ∉ text) (hend : ∀ b ∈ r.head?, b = '\n') :
      Filler source p (p + (text.length + 1))

/-- Fillers one behind the other. -/
inductive Fillers (source : List Char) : Nat → Nat → Prop where
  | nil (p : Nat) : Fillers source p p
  | cons {p q r : Nat} (h : Filler source p q) (hrest : Fillers source q r) : Fillers source p r

/-- The tokens lie in the source at the boundaries of characters, none is empty, and each ends
    before the next one starts. -/
def InOrder (source : List Char) (tokens : List Token) : Prop :=
  (∀ t ∈ tokens, t.span.start < t.span.stop ∧ t.span.stop ≤ source.length ∧
    Utf8.isCharBoundary (source.drop t.span.start) = true ∧
    Utf8.isCharBoundary (source.drop t.span.stop) = true) ∧
  tokens.Pairwise fun t t' => t.span.stop ≤ t'.span.start

/-- Every byte outside the tokens is one of a filler that lies outside of them, and no comment
    starts directly behind a byte of a word. -/
def FillsGaps (source : List Char) (tokens : List Token) : Prop :=
  ∀ i < source.length, Outside tokens i → ∃ p q, Filler source p q ∧ p ≤ i ∧ i < q ∧
    (∀ j, p ≤ j → j < q → Outside tokens j) ∧
    (source[p]? = some '#' → ∀ j, j + 1 = p → ¬ WordByte tokens j)

/-- The token is a process substitution: only these words start with an angle. -/
def IsProcessSubst (source : List Char) (t : Token) : Prop :=
  t.kind.isWord = true ∧ (source[t.span.start]? = some '<' ∨ source[t.span.start]? = some '>')

/-! ## 3. Fillers -/

theorem Filler.lt {p q : Nat} (h : Filler source p q) : p < q := by
  cases h <;> omega

theorem Fillers.le {p q : Nat} (h : Fillers source p q) : p ≤ q := by
  induction h with
  | nil => exact Nat.le_refl _
  | cons h hrest ih => exact Nat.le_trans (Nat.le_of_lt h.lt) ih

theorem Fillers.append {p q r : Nat} (h : Fillers source p q)
    (h' : Fillers source q r) : Fillers source p r := by
  induction h with
  | nil => exact h'
  | cons h hrest ih => exact .cons h (ih h')

/-- A byte of a row of fillers is one of one of them. -/
theorem Fillers.find {p q i : Nat} (h : Fillers source p q) (hp : p ≤ i)
    (hq : i < q) : ∃ a b, Filler source a b ∧ p ≤ a ∧ b ≤ q ∧ a ≤ i ∧ i < b := by
  induction h with
  | nil => omega
  | @cons p m q h hrest ih =>
    by_cases hi : i < m
    · exact ⟨p, m, h, Nat.le_refl p, hrest.le, hp, hi⟩
    · obtain ⟨a, b, hf, ha, hb, hai, hib⟩ := ih (by omega) hq
      have := h.lt
      exact ⟨a, b, hf, by omega, hb, hai, hib⟩

/-! ## 4. Boundaries of characters -/

/-- At a side of the place there is a byte of ASCII, or an end of the source. -/
def AsciiSide (source : List Char) (p : Nat) : Prop :=
  p = 0 ∨ (∃ j b, j + 1 = p ∧ source[j]? = some b ∧ b.toNat < 0x80) ∨
    ∀ b ∈ source[p]?, b.toNat < 0x80

theorem isCharBoundary_of_head {s : List Char} (h : ∀ b ∈ s.head?, b.toNat < 0x80) :
    Utf8.isCharBoundary s = true := by
  unfold Utf8.isCharBoundary
  cases s with
  | nil => rfl
  | cons b s =>
    have hb := h b rfl
    simp only [List.head?_cons, Option.any_some, Utf8.isContinuation, Bool.not_eq_true',
      decide_eq_false_iff_not]
    omega

/-- Behind a byte of ASCII a character starts. -/
theorem isCharBoundary_behind {s u v : List Char} {a : Char} (ha : a.toNat < 0x80)
    (h : Utf8.encode s = u ++ a :: v) : Utf8.isCharBoundary v = true := by
  induction s generalizing u with
  | nil =>
    have := congrArg List.length h
    simp at this
  | cons c s ih =>
    rw [Utf8.encode_cons] at h
    rcases List.append_eq_append_iff.mp h with ⟨w, hu, hw⟩ | ⟨w, hc, hw⟩
    · exact ih hw
    · cases w with
      | nil => exact ih (u := []) hw.symm
      | cons x w =>
        obtain ⟨rfl, hv⟩ := List.cons.inj hw
        have hmem : a ∈ Utf8.encodeChar c := by
          rw [hc]
          exact List.mem_append_right _ List.mem_cons_self
        have hca := Utf8.eq_of_mem_encodeChar ha hmem
        rw [← hca, Utf8.encodeChar_of_ascii ha] at hc
        cases u with
        | nil =>
          obtain rfl : w = [] := (List.cons.inj hc).2.symm
          rw [hv]
          exact Utf8.isCharBoundary_encode s
        | cons y u =>
          have := congrArg List.length hc
          simp at this

theorem AsciiSide.isCharBoundary {s : List Char} (h : AsciiSide (Utf8.encode s) p) :
    Utf8.isCharBoundary ((Utf8.encode s).drop p) = true := by
  rcases h with rfl | ⟨j, b, rfl, hb, hlt⟩ | h
  · exact Utf8.isCharBoundary_encode s
  · obtain ⟨hj, hget⟩ := List.getElem?_eq_some_iff.mp hb
    refine isCharBoundary_behind hlt (u := (Utf8.encode s).take j) (s := s) ?_
    rw [← hget, List.getElem_cons_drop, List.take_append_drop]
  · exact isCharBoundary_of_head (by rwa [List.head?_drop])

theorem getElem?_of_drop {source r : List Char}
    (h : source.drop p = b :: r) : source[p]? = some b := by
  rw [← List.head?_drop, h]
  rfl

theorem drop_succ_of_drop {source r : List Char}
    (h : source.drop p = b :: r) : source.drop (p + 1) = r := by
  rw [← List.drop_drop, h]
  rfl

theorem Filler.asciiSide {p q : Nat} (h : Filler source p q) :
    AsciiSide source q := by
  cases h with
  | blank h hb =>
    refine .inr (.inl ⟨p, _, rfl, getElem?_of_drop h, ?_⟩)
    rcases hb with rfl | rfl <;> decide
  | continuation h =>
    exact .inr (.inl ⟨p + 1, '\n', rfl, getElem?_of_drop (drop_succ_of_drop h), by decide⟩)
  | carriage h =>
    exact .inr (.inl ⟨p + 2, '\n', rfl,
      getElem?_of_drop (drop_succ_of_drop (drop_succ_of_drop h)), by decide⟩)
  | @comment text r h hline hend =>
    refine .inr (.inr ?_)
    intro b hb
    have hdrop : source.drop (p + (text.length + 1)) = r := by
      rw [← List.drop_drop, h, List.cons_append, List.drop_succ_cons, List.drop_left]
    rw [← List.head?_drop, hdrop] at hb
    rw [hend b hb]
    decide

theorem Fillers.asciiSide {p q : Nat} (h : Fillers source p q)
    (hp : AsciiSide source p) : AsciiSide source q := by
  induction h with
  | nil => exact hp
  | cons h hrest ih => exact ih h.asciiSide

/-! ## 5. One token -/

/-- What a token is that the lexer has read. -/
structure TokenRead (source : List Char) (t : Token) : Prop where
  nonempty : t.span.start < t.span.stop
  bounded : t.span.stop ≤ source.length
  head : source[t.span.start]? ≠ some '#'
  /-- A word that is no process substitution ends where a word breaks. -/
  word : t.kind.isWord = true →
    IsProcessSubst source t ∨ ∀ b ∈ source[t.span.stop]?, isWordBreak b = true
  side : AsciiSide source t.span.stop

/-- The cursor stands in the source. -/
def InSource (source : List Char) (c : Text) : Prop :=
  c.rest = source.drop c.pos ∧ c.pos ≤ source.length

theorem InSource.reaches {c c' : Text} (h : InSource source c)
    (hr : c.Reaches c') : InSource source c' := by
  obtain ⟨hrest, hpos⟩ := h
  have hlength := hr.pos_add_length
  obtain ⟨u, hu, hp⟩ := hr
  refine ⟨?_, ?_⟩
  · rw [hp, ← List.drop_drop, ← hrest, hu, List.drop_left]
  · have hle : c.rest.length = source.length - c.pos := by rw [hrest, List.length_drop]
    omega

/-- Blanks and continued lines. -/
theorem skipBlanksLoop_fillers (pos : Nat) (r : List Char)
    (h : source.drop pos = r) : Fillers source pos (skipBlanksLoop pos r).pos := by
  fun_induction skipBlanksLoop pos r with
  | case1 pos r ih => exact .cons (.blank h (.inl rfl)) (ih (drop_succ_of_drop h))
  | case2 pos r ih => exact .cons (.blank h (.inr rfl)) (ih (drop_succ_of_drop h))
  | case3 pos r ih =>
    exact .cons (.continuation h) (ih (drop_succ_of_drop (drop_succ_of_drop h)))
  | case4 pos r ih =>
    exact .cons (.carriage h)
      (ih (drop_succ_of_drop (drop_succ_of_drop (drop_succ_of_drop h))))
  | case5 pos r => exact .nil pos

theorem skipBlanksLoop_head (pos : Nat) (r : List Char) :
    ∀ b ∈ (skipBlanksLoop pos r).rest.head?, b ≠ ' ' ∧ b ≠ '\t' := by
  fun_induction skipBlanksLoop pos r with
  | case1 pos r ih => exact ih
  | case2 pos r ih => exact ih
  | case3 pos r ih => exact ih
  | case4 pos r ih => exact ih
  | case5 pos r hspace htab hnewline hcarriage =>
    intro b hb
    cases r with
    | nil => cases hb
    | cons a r =>
      cases hb
      exact ⟨fun he => hspace r (by rw [he]), fun he => htab r (by rw [he])⟩

theorem consumeComment_filler (hc : InSource source c) (hr : c.rest = '#' :: r) :
    Filler source c.pos (consumeComment c).pos := by
  have hsplit : c.rest = '#' :: r.takeWhile (· != '\n') ++ r.dropWhile (· != '\n') := by
    rw [hr, List.cons_append, List.takeWhile_append_dropWhile]
  have hpos : (consumeComment c).pos = c.pos + ((r.takeWhile (· != '\n')).length + 1) := by
    rw [consumeComment, hr, List.takeWhile_cons_of_pos (by decide)]
    rfl
  rw [hpos]
  refine .comment (hc.1.symm.trans hsplit) ?_ ?_
  · intro hmem
    have := List.all_eq_true.mp (List.all_takeWhile (p := (· != '\n')) (l := r)) '\n' hmem
    simp at this
  · intro b hb
    have := List.head?_dropWhile_not (· != '\n') r
    rw [hb] at this
    simpa using this

/-- The bytes of operators. -/
def operatorBytes : List Char := ['\n', ';', '(', ')', '&', '|', '<', '>', '-']

theorem operatorBytes_ascii (h : operatorBytes.contains b = true) :
    b.toNat < 0x80 ∧ b ≠ '#' := by
  have hall : (operatorBytes.all fun b => decide (b.toNat < 0x80 ∧ b ≠ '#')) = true := by decide
  simpa using List.all_eq_true.mp hall b (List.contains_iff_mem.mp h)

/-- What `next_normal_token` yields at a cursor behind the fillers. -/
structure TokenAt (lx : Lexer) (c : Text) (out : Lexed) : Prop where
  start : out.token.span.start = c.pos
  noEnd : out.token.kind ≠ .eof
  read : TokenRead lx.source out.token
  lexer : out.lexer = { lx with pos := out.token.span.stop }

theorem operator_tokenAt (op : List Char)
    {kind : TokenKind} (hc : InSource lx.source c) (hr : c.rest = op ++ r) (hne : op ≠ [])
    (hbytes : op.all operatorBytes.contains = true) (hword : kind.isWord = false) (hend : kind ≠ .eof) :
    TokenAt lx c (operator op.length kind lx c) where
  start := rfl
  noEnd := hend
  lexer := rfl
  read := by
    have hbytes := List.all_eq_true.mp hbytes
    obtain ⟨b, op, rfl⟩ := List.exists_cons_of_ne_nil hne
    have hdrop : lx.source.drop c.pos = b :: (op ++ r) := by rw [← hc.1, hr, List.cons_append]
    have hlength := congrArg List.length hdrop
    simp only [List.length_drop, List.length_cons, List.length_append] at hlength
    refine ⟨?_, ?_, ?_, ?_, ?_⟩
    · change c.pos < c.pos + (op.length + 1)
      omega
    · change c.pos + (op.length + 1) ≤ lx.source.length
      omega
    · change lx.source[c.pos]? ≠ some '#'
      rw [getElem?_of_drop hdrop]
      intro h
      exact (operatorBytes_ascii (hbytes b List.mem_cons_self)).2 (Option.some.inj h)
    · intro h
      change kind.isWord = true at h
      rw [hword] at h
      cases h
    · change AsciiSide lx.source (c.pos + (op.length + 1))
      have hlast : (b :: op).length - 1 = op.length := rfl
      have hget : lx.source[c.pos + op.length]? = some ((b :: op).getLast (List.cons_ne_nil b op)) := by
        rw [← List.getElem?_drop, hdrop, ← List.cons_append,
          List.getElem?_append_left (by simp), List.getLast_eq_getElem, List.getElem?_eq_getElem]
        rfl
      exact .inr (.inl ⟨_, _, rfl, hget, (operatorBytes_ascii (hbytes _ (List.getLast_mem _))).1⟩)

/-- A word ends where it breaks. -/
theorem readWordLoop_stops {depth n : Nat} {c c' : Text} {marks : List Mark}
    (h : readWordLoop depth n c = .ok (marks, c')) : ∀ b ∈ c'.rest.head?, isWordBreak b = true := by
  induction n generalizing c marks with
  | zero => simp [readWordLoop] at h
  | succ n ih =>
    unfold readWordLoop at h
    split at h
    next hr =>
      obtain ⟨-, rfl⟩ : [] = marks ∧ c = c' := by simpa using h
      rw [hr]
      intro b hb
      cases hb
    next b r hr =>
      split at h
      next hbreak =>
        obtain ⟨-, rfl⟩ : [] = marks ∧ c = c' := by simpa using h
        rw [hr]
        rintro b' ⟨⟩
        exact hbreak
      next =>
        obtain ⟨⟨ms, c₁⟩, h₁, h⟩ := bind_eq_ok.mp h
        obtain ⟨⟨more, c₂⟩, h₂, h⟩ := bind_eq_ok.mp h
        obtain ⟨-, rfl⟩ : ms ++ more = marks ∧ c₂ = c' := by simpa using h
        exact ih h₂

theorem isWordBreak_ascii (h : isWordBreak b = true) : b.toNat < 0x80 ∧ b ≠ '#' := by
  have hmem : b ∈ [' ', '\t', '\n', ';', '&', '|', '<', '>', '(', ')'] :=
    List.contains_iff_mem.mp h
  have hall : ([' ', '\t', '\n', ';', '&', '|', '<', '>', '(', ')'].all fun b =>
      decide (b.toNat < 0x80 ∧ b ≠ '#')) = true := by decide
  simpa using List.all_eq_true.mp hall b hmem

theorem makeWordToken_kind (c c' : Text) : (makeWordToken c c').kind.isWord = true ∧
    (makeWordToken c c').kind ≠ .eof := by
  have hkind : ∀ (text : List Char) (plain reserved : Bool),
      ((plainWordTokenKind text plain).getD (.word reserved)).isWord = true ∧
        (plainWordTokenKind text plain).getD (.word reserved) ≠ .eof := by
    intro text plain reserved
    unfold plainWordTokenKind
    split
    · exact ⟨rfl, nofun⟩
    · split
      · exact ⟨rfl, nofun⟩
      · split
        · exact ⟨rfl, nofun⟩
        · exact ⟨rfl, nofun⟩
  exact hkind _ _ _

theorem readWord_tokenAt
    (hc : InSource lx.source c) (hr : c.rest = b :: r) (hbreak : isWordBreak b = false)
    (hb : b ≠ '#') (h : readWord lx c = .ok out) : TokenAt lx c out := by
  obtain ⟨⟨marks, c'⟩, hloop, h⟩ := bind_eq_ok.mp h
  obtain rfl := pure_eq_ok.mp h
  have hstop := readWordLoop_stops hloop
  have hpass : c.Passes c' := by
    rw [readWordLoop] at hloop
    simp only [hr, hbreak, Bool.false_eq_true, if_false] at hloop
    obtain ⟨⟨ms, c₁⟩, h₁, h⟩ := bind_eq_ok.mp hloop
    obtain ⟨⟨more, c₂⟩, h₂, h⟩ := bind_eq_ok.mp h
    obtain ⟨-, rfl⟩ : ms ++ more = marks ∧ c₂ = c' := by simpa using h
    have hpart := ((readWordPart_returns _ (by simp [hr])).of_ok h₁).1
    exact hpart.trans_reaches ((readWordLoop_returns _ _ _).of_ok h₂).1
  have hc' := hc.reaches hpass.1
  have hhead : ∀ b ∈ lx.source[c'.pos]?, isWordBreak b = true := by
    rw [← List.head?_drop, ← hc'.1]
    exact hstop
  refine ⟨rfl, (makeWordToken_kind c c').2, ⟨hpass.2, hc'.2, ?_, ?_, ?_⟩, rfl⟩
  · change lx.source[c.pos]? ≠ some '#'
    rw [getElem?_of_drop (hc.1.symm.trans hr)]
    exact fun h => hb (Option.some.inj h)
  · exact fun _ => .inr hhead
  · exact .inr (.inr fun b hb => (isWordBreak_ascii (hhead b hb)).1)

theorem processSubst_tokenAt
    (hc : InSource lx.source c) (hr : c.rest = b :: '(' :: r) (hb : b = '<' ∨ b = '>')
    (h : processSubstToken lx c = .ok out) : TokenAt lx c out := by
  obtain ⟨⟨marks, c'⟩, hsubst, h⟩ := bind_eq_ok.mp h
  obtain rfl := pure_eq_ok.mp h
  obtain ⟨v, hv⟩ := (consumeProcessSubst_returns _ _).of_ok hsubst
  have hskip : c.Passes (c.skip 2) := .skip (by decide) (by simp [hr])
  have hpass := hskip.trans hv.passes
  have hinside := hc.reaches hskip.1
  have hc' := hc.reaches hpass.1
  have hget : lx.source[c.pos]? = some b := getElem?_of_drop (hc.1.symm.trans hr)
  refine ⟨rfl, nofun, ⟨hpass.2, hc'.2, ?_, ?_, ?_⟩, rfl⟩
  · change lx.source[c.pos]? ≠ some '#'
    rw [hget]
    rcases hb with rfl | rfl <;> decide
  · intro _
    refine .inl ⟨rfl, ?_⟩
    change lx.source[c.pos]? = some '<' ∨ lx.source[c.pos]? = some '>'
    rw [hget]
    exact hb.imp (congrArg some) (congrArg some)
  · have hclose : lx.source[(c.skip 2).pos + v.length]? = some ')' := by
      rw [← List.getElem?_drop, ← hinside.1, hv.rest, List.append_assoc,
        List.getElem?_append_right (Nat.le_refl _), Nat.sub_self]
      rfl
    exact .inr (.inl ⟨_, ')', hv.pos.symm, hclose, by decide⟩)

/-- Fillers, and behind them a token or the end of the source. -/
structure Reads (lx : Lexer) (out : Lexed) : Prop where
  fillers : Fillers lx.source lx.pos out.token.span.start
  token : (out.token.kind = .eof ∧ out.token.span.start = lx.source.length) ∨
    (out.token.kind ≠ .eof ∧ TokenRead lx.source out.token ∧
      out.lexer = { lx with pos := out.token.span.stop })

theorem TokenAt.reads (h : TokenAt lx c out) (hf : Fillers lx.source lx.pos c.pos) : Reads lx out :=
  ⟨h.start ▸ hf, .inr ⟨h.noEnd, h.read, h.lexer⟩⟩

theorem lexer_inSource (h : lx.pos ≤ lx.source.length) :
    InSource lx.source lx.cursor := ⟨rfl, h⟩

theorem ampToken_tokenAt (hc : InSource lx.source c)
    (hr : c.rest = '&' :: r) : TokenAt lx c (ampToken lx c) := by
  unfold ampToken
  split
  next hrest =>
    cases hr.symm.trans hrest
    exact operator_tokenAt ['&', '&'] hc hr (by decide) (by decide) rfl (by decide)
  next hrest =>
    cases hr.symm.trans hrest
    exact operator_tokenAt ['&', '>', '>'] hc hr (by decide) (by decide) rfl (by decide)
  next hrest =>
    cases hr.symm.trans hrest
    exact operator_tokenAt ['&', '>'] hc hr (by decide) (by decide) rfl (by decide)
  next => exact operator_tokenAt ['&'] hc hr (by decide) (by decide) rfl (by decide)

theorem pipeToken_tokenAt (hc : InSource lx.source c)
    (hr : c.rest = '|' :: r) : TokenAt lx c (pipeToken lx c) := by
  unfold pipeToken
  split
  next hrest =>
    cases hr.symm.trans hrest
    exact operator_tokenAt ['|', '|'] hc hr (by decide) (by decide) rfl (by decide)
  next hrest =>
    cases hr.symm.trans hrest
    exact operator_tokenAt ['|', '&'] hc hr (by decide) (by decide) rfl (by decide)
  next => exact operator_tokenAt ['|'] hc hr (by decide) (by decide) rfl (by decide)

theorem greaterToken_tokenAt
    (hc : InSource lx.source c) (hr : c.rest = '>' :: r) (h : greaterToken lx c = .ok out) :
    TokenAt lx c out := by
  unfold greaterToken at h
  split at h
  next hrest =>
    cases hr.symm.trans hrest
    exact processSubst_tokenAt hc hr (.inr rfl) h
  next hrest =>
    cases hr.symm.trans hrest
    cases h
    exact operator_tokenAt ['>', '>'] hc hr (by decide) (by decide) rfl (by decide)
  next hrest =>
    cases hr.symm.trans hrest
    cases h
    exact operator_tokenAt ['>', '|'] hc hr (by decide) (by decide) rfl (by decide)
  next =>
    cases h
    exact operator_tokenAt ['>'] hc hr (by decide) (by decide) rfl (by decide)

theorem lessToken_tokenAt
    (hc : InSource lx.source c) (hr : c.rest = '<' :: r) (h : lessToken lx c = .ok out) :
    TokenAt lx c out := by
  unfold lessToken at h
  split at h
  next hrest =>
    cases hr.symm.trans hrest
    exact processSubst_tokenAt hc hr (.inl rfl) h
  next hrest =>
    cases hr.symm.trans hrest
    cases h
    exact operator_tokenAt ['<', '<', '<'] hc hr (by decide) (by decide) rfl (by decide)
  next hrest =>
    cases hr.symm.trans hrest
    cases h
    exact operator_tokenAt ['<', '<', '-'] hc hr (by decide) (by decide) rfl (by decide)
  next hrest =>
    cases hr.symm.trans hrest
    cases h
    exact operator_tokenAt ['<', '<'] hc hr (by decide) (by decide) rfl (by decide)
  next hrest =>
    cases hr.symm.trans hrest
    cases h
    exact operator_tokenAt ['<', '>'] hc hr (by decide) (by decide) rfl (by decide)
  next =>
    cases h
    exact operator_tokenAt ['<'] hc hr (by decide) (by decide) rfl (by decide)

theorem nextNormalToken_reads (n : Nat)
    (hpos : lx.pos ≤ lx.source.length) (h : nextNormalToken n lx = .ok out) : Reads lx out := by
  induction n generalizing lx with
  | zero => cases h
  | succ n ih =>
    have hcursor := lexer_inSource hpos
    have hc := hcursor.reaches (skipBlanks_reaches lx.cursor)
    have hf : Fillers lx.source lx.pos (skipBlanks lx.cursor).pos :=
      skipBlanksLoop_fillers lx.pos _ rfl
    rw [nextNormalToken] at h
    have hblank := skipBlanksLoop_head lx.pos (lx.source.drop lx.pos)
    change ∀ b ∈ (skipBlanks lx.cursor).rest.head?, b ≠ ' ' ∧ b ≠ '\t' at hblank
    generalize skipBlanks lx.cursor = c at h hc hf hblank
    split at h
    next hr =>
      cases h
      refine ⟨hf, .inl ⟨rfl, ?_⟩⟩
      have hnone : lx.source.drop c.pos = [] := hc.1.symm.trans hr
      exact Nat.le_antisymm hc.2 (List.drop_eq_nil_iff.mp hnone)
    next hr =>
      cases h
      exact (operator_tokenAt ['\n'] hc hr (by decide) (by decide) rfl (by decide)).reads hf
    next hr =>
      cases h
      exact (operator_tokenAt [';'] hc hr (by decide) (by decide) rfl (by decide)).reads hf
    next hr =>
      cases h
      exact (operator_tokenAt ['('] hc hr (by decide) (by decide) rfl (by decide)).reads hf
    next hr =>
      cases h
      exact (operator_tokenAt [')'] hc hr (by decide) (by decide) rfl (by decide)).reads hf
    next hr =>
      have hcomment := consumeComment_filler hc hr
      have hc' := hc.reaches (consumeComment_reaches c)
      have hreads := @ih (lx.moveTo (consumeComment c)) hc'.2 h
      refine ⟨hf.append (.cons hcomment hreads.fillers), ?_⟩
      rcases hreads.token with hend | hread
      · exact .inl hend
      · exact .inr ⟨hread.1, hread.2.1, hread.2.2⟩
    next hr =>
      cases h
      exact (ampToken_tokenAt hc hr).reads hf
    next hr =>
      cases h
      exact (pipeToken_tokenAt hc hr).reads hf
    next hr => exact (greaterToken_tokenAt hc hr h).reads hf
    next hr => exact (lessToken_tokenAt hc hr h).reads hf
    next hnil hnewline hsemi hopen hclose hhash hamp hpipe hgreater hless =>
      obtain ⟨b, r, hr⟩ := List.exists_cons_of_ne_nil hnil
      have hb := hblank b (by rw [hr]; rfl)
      have hne : b ≠ '#' := fun he => hhash r (by rw [hr, he])
      have hbreak : isWordBreak b = false := by
        rw [Bool.eq_false_iff]
        intro hmem
        have hmem := List.contains_iff_mem.mp hmem
        simp only [List.mem_cons, List.not_mem_nil, or_false] at hmem
        rcases hmem with rfl | rfl | rfl | rfl | rfl | rfl | rfl | rfl | rfl | rfl
        · exact hb.1 rfl
        · exact hb.2 rfl
        · exact hnewline r hr
        · exact hsemi r hr
        · exact hamp r hr
        · exact hpipe r hr
        · exact hless r hr
        · exact hgreater r hr
        · exact hopen r hr
        · exact hclose r hr
      exact (readWord_tokenAt hc hr hbreak hne h).reads hf

/-! ## 6. A run of the lexer -/

/-- What stands in the source from `p` on: tokens with fillers before, between and behind
    them. -/
inductive Run (source : List Char) : Nat → List Token → Prop where
  | done {p : Nat} (h : Fillers source p source.length) : Run source p []
  | step {p : Nat} {t : Token} {ts : List Token} (h : Fillers source p t.span.start)
      (ht : TokenRead source t) (hrest : Run source t.span.stop ts) : Run source p (t :: ts)

theorem tokenizeLoop_run {n : Nat} {tokens : List Token} (hmode : lx.mode = .normal)
    (hpos : lx.pos ≤ lx.source.length) (h : tokenizeLoop n lx = .ok tokens) :
    Run lx.source lx.pos tokens := by
  induction n generalizing lx tokens with
  | zero => cases h
  | succ n ih =>
    obtain ⟨out, hout, h⟩ := bind_eq_ok.mp h
    have hread : Reads lx out := by
      rw [nextToken, hmode] at hout
      exact nextNormalToken_reads 2 hpos hout
    rcases hread.token with ⟨hend, hstart⟩ | ⟨hne, htoken, hlexer⟩
    · rw [if_pos hend] at h
      obtain rfl := pure_eq_ok.mp h
      exact .done (hstart ▸ hread.fillers)
    · rw [if_neg hne] at h
      obtain ⟨rest, hrest, h⟩ := bind_eq_ok.mp h
      obtain rfl := pure_eq_ok.mp h
      rw [hlexer] at hrest
      exact .step hread.fillers htoken
        (@ih { lx with pos := out.token.span.stop } rest hmode htoken.bounded hrest)

/-- The bound on the number of tokens is never met. -/
theorem tokenizeLoop_ne (n : Nat) (hmode : lx.mode = .normal)
    (hpos : lx.pos ≤ lx.source.length) (hn : lx.source.length - lx.pos < n) :
    tokenizeLoop n lx ≠ .error .outOfFuel := by
  induction n generalizing lx with
  | zero => omega
  | succ n ih =>
    refine bind_ne (nextToken_ne_outOfFuel lx) ?_
    intro out hout
    have hread : Reads lx out := by
      rw [nextToken, hmode] at hout
      exact nextNormalToken_reads 2 hpos hout
    rcases hread.token with ⟨hend, -⟩ | ⟨hne, htoken, hlexer⟩
    · rw [if_pos hend]
      exact pure_ne_error
    · rw [if_neg hne]
      refine bind_ne ?_ fun _ _ => pure_ne_error
      have hle := hread.fillers.le
      have hlt := htoken.nonempty
      have hbounded := htoken.bounded
      rw [hlexer]
      exact ih hmode hbounded (by simp only; omega)

theorem tokenize_ne_outOfFuel (source : List Char) : tokenize source ≠ .error .outOfFuel :=
  tokenizeLoop_ne _ rfl (Nat.zero_le _) (by simp [Lexer.new])

theorem Run.start_le (h : Run source p ts) :
    ∀ t ∈ ts, p ≤ t.span.start := by
  induction h with
  | done => exact fun t ht => by cases ht
  | step h ht hrest ih =>
    intro t' ht'
    rcases List.mem_cons.mp ht' with rfl | ht'
    · exact h.le
    · have := h.le
      have := ht.nonempty
      have := ih t' ht'
      omega

theorem Run.nonempty (h : Run source p ts) :
    ∀ t ∈ ts, t.span.start < t.span.stop := by
  induction h with
  | done => exact fun t ht => by cases ht
  | step h ht hrest ih =>
    intro t' ht'
    rcases List.mem_cons.mp ht' with rfl | ht'
    · exact ht.nonempty
    · exact ih t' ht'

theorem Run.inOrder {s : List Char} (h : Run (Utf8.encode s) p ts)
    (hp : AsciiSide (Utf8.encode s) p) : InOrder (Utf8.encode s) ts := by
  induction h with
  | done => exact ⟨fun t ht => (by cases ht), .nil⟩
  | step h ht hrest ih =>
    obtain ⟨hall, hpair⟩ := ih ht.side
    refine ⟨?_, .cons hrest.start_le hpair⟩
    intro t' ht'
    rcases List.mem_cons.mp ht' with rfl | ht'
    · exact ⟨ht.nonempty, ht.bounded, (h.asciiSide hp).isCharBoundary, ht.side.isCharBoundary⟩
    · exact hall t' ht'

/-- Every byte outside the tokens is one of a filler outside the tokens; where a word ends
    directly before it, the filler is no comment or the word is a process substitution. -/
theorem Run.fills (h : Run source p ts) {i : Nat}
    (hp : p ≤ i) (hi : i < source.length) (hout : Outside ts i) :
    ∃ a b, Filler source a b ∧ p ≤ a ∧ a ≤ i ∧ i < b ∧ (∀ j, a ≤ j → j < b → Outside ts j) ∧
      (source[a]? = some '#' → ∀ j, j + 1 = a → WordByte ts j →
        ∃ t ∈ ts, IsProcessSubst source t ∧ t.span.stop = a) := by
  induction h with
  | done h =>
    obtain ⟨a, b, hf, ha, -, hai, hib⟩ := h.find hp hi
    refine ⟨a, b, hf, ha, hai, hib, fun _ _ _ t ht => (by cases ht), ?_⟩
    rintro - j - ⟨t, ht, -⟩
    cases ht
  | @step p t ts h ht hrest ih =>
    have hlater := hrest.start_le
    have hne := ht.nonempty
    by_cases hbefore : i < t.span.start
    · obtain ⟨a, b, hf, ha, hb, hai, hib⟩ := h.find hp hbefore
      have houtside : ∀ j, j < t.span.start → Outside (t :: ts) j := by
        intro j hj t' ht' hcover
        have hstart := hcover.1
        rcases List.mem_cons.mp ht' with rfl | ht'
        · omega
        · have := hlater t' ht'
          omega
      refine ⟨a, b, hf, ha, hai, hib, fun j _ hj => houtside j (by omega), ?_⟩
      rintro - j hj ⟨t', ht', -, hcover⟩
      exact absurd hcover (houtside j (by omega) t' ht')
    · have hstop : t.span.stop ≤ i := by
        by_contra hlt
        exact hout t List.mem_cons_self ⟨by omega, by omega⟩
      obtain ⟨a, b, hf, ha, hai, hib, houtside, hcomment⟩ :=
        ih hstop fun t' ht' => hout t' (List.mem_cons_of_mem t ht')
      have hle := h.le
      refine ⟨a, b, hf, by omega, hai, hib, ?_, ?_⟩
      · intro j haj hjb t' ht'
        rcases List.mem_cons.mp ht' with rfl | ht'
        · exact fun hcover => by have := hcover.2; omega
        · exact houtside j haj hjb t' ht'
      · rintro hhash j hj ⟨t', ht', hword, hcover⟩
        rcases List.mem_cons.mp ht' with rfl | ht'
        · -- the word ends directly before the comment
          have hend : t'.span.stop = a := by
            have := hcover.2
            omega
          refine ⟨t', List.mem_cons_self, ?_, hend⟩
          rcases ht.word hword with hsubst | hbreak
          · exact hsubst
          · rw [hend] at hbreak
            exact absurd rfl (isWordBreak_ascii (hbreak '#' hhash)).2
        · obtain ⟨t'', ht'', hsubst, hend⟩ := hcomment hhash j hj ⟨t', ht', hword, hcover⟩
          exact ⟨t'', List.mem_cons_of_mem t ht'', hsubst, hend⟩

/-- Behind a token no token starts with a hash. -/
theorem Run.hash_outside (h : Run source p ts)
    {t : Token} (ht : t ∈ ts) (hhash : source[t.span.stop]? = some '#') :
    Outside ts t.span.stop := by
  induction h with
  | done => cases ht
  | @step p t' ts h ht' hrest ih =>
    have hlater := hrest.start_le
    have hne := ht'.nonempty
    intro t'' ht'' hcover
    rcases List.mem_cons.mp ht with rfl | htail
    · rcases List.mem_cons.mp ht'' with rfl | ht''
      · have := hcover.2
        omega
      · -- the first byte of what follows is the hash
        cases hrest with
        | done => cases ht''
        | @step _ t₁ ts₁ hf ht₁ hrest₁ =>
          have hle := hf.le
          have hstarts : t₁.span.start ≠ t.span.stop := by
            intro heq
            exact ht₁.head (heq ▸ hhash)
          have hfirst := ht₁.nonempty
          have hstart := hcover.1
          rcases List.mem_cons.mp ht'' with rfl | ht''
          · omega
          · have := hrest₁.start_le t'' ht''
            omega
    · rcases List.mem_cons.mp ht'' with rfl | ht''
      · have hstart := hlater t htail
        have hmem := hrest.nonempty t htail
        have := hcover.2
        omega
      · exact ih htail t'' ht'' hcover

/-! ## 7. Process substitutions before a hash -/

/-- The states of the lexer that a run from `lx` goes through. -/
inductive Reached : Lexer → Lexer → Prop where
  | refl (lx : Lexer) : Reached lx lx
  | step {lx lx' : Lexer} {out : Lexed} (hout : nextToken lx = .ok out)
      (hne : out.token.kind ≠ .eof) (h : Reached out.lexer lx') : Reached lx lx'

/-- The next token is a process substitution, and a hash stands directly behind it. -/
def SubstBeforeHash (lx : Lexer) : Prop :=
  (∃ b r, (skipBlanks lx.cursor).rest = b :: '(' :: r ∧ (b = '<' ∨ b = '>')) ∧
    ∃ marks c', consumeProcessSubst lx.substDepth (skipBlanks lx.cursor) = .ok (marks, c') ∧
      c'.rest.head? = some '#'

/-- Before a parenthesis an angle starts a process substitution. -/
theorem nextNormalToken_subst {n : Nat}
    (hr : (skipBlanks lx.cursor).rest = b :: '(' :: r) (hb : b = '<' ∨ b = '>') :
    nextNormalToken (n + 1) lx = processSubstToken lx (skipBlanks lx.cursor) := by
  rw [nextNormalToken]
  rcases hb with rfl | rfl
  · simp only [hr, lessToken]
  · simp only [hr, greaterToken]

/-- Behind a comment there is a newline or the end of the source. -/
theorem nextNormalToken_comment {n : Nat}
    (hhead : ∀ b ∈ lx.cursor.rest.head?, b = '\n') (h : nextNormalToken n lx = .ok out) :
    out.token.kind.isWord = false := by
  cases n with
  | zero => cases h
  | succ n =>
    have hblanks : skipBlanks lx.cursor = lx.cursor := by
      unfold skipBlanks
      cases hr : lx.cursor.rest with
      | nil =>
        rw [skipBlanksLoop, ← hr]
        all_goals simp
      | cons b r =>
        obtain rfl : b = '\n' := hhead b (by rw [hr]; rfl)
        rw [skipBlanksLoop, ← hr]
        all_goals simp
    rw [nextNormalToken, hblanks] at h
    cases hr : lx.cursor.rest with
    | nil =>
      simp only [hr] at h
      cases h
      rfl
    | cons b r =>
      obtain rfl : b = '\n' := hhead b (by rw [hr]; rfl)
      simp only [hr] at h
      cases h
      rfl

/-- Only before an angle and a parenthesis a process substitution is read. -/
theorem not_subst (hpos : lx.pos ≤ lx.source.length)
    (hex : ¬ ∃ b r, (skipBlanks lx.cursor).rest = b :: '(' :: r ∧ (b = '<' ∨ b = '>'))
    (h : nextNormalToken 2 lx = .ok out) : ¬ IsProcessSubst lx.source out.token := by
  have hcursor := lexer_inSource hpos
  have hreach := skipBlanks_reaches lx.cursor
  have hc := hcursor.reaches hreach
  rintro ⟨hword, hangle⟩
  rw [nextNormalToken] at h
  generalize skipBlanks lx.cursor = c at h hc hex hreach
  split at h
  next => cases h; cases hword
  next => cases h; cases hword
  next => cases h; cases hword
  next => cases h; cases hword
  next => cases h; cases hword
  next =>
    have hhead := consumeComment_head c
    rw [← cursor_moveTo (hreach.trans (consumeComment_reaches c))] at hhead
    rw [nextNormalToken_comment hhead h] at hword
    cases hword
  next =>
    cases h
    unfold ampToken at hword
    split at hword <;> cases hword
  next =>
    cases h
    unfold pipeToken at hword
    split at hword <;> cases hword
  next hr =>
    unfold greaterToken at h
    split at h
    next hrest =>
      cases hr.symm.trans hrest
      exact hex ⟨'>', _, hr, .inr rfl⟩
    all_goals
      cases h
      cases hword
  next hr =>
    unfold lessToken at h
    split at h
    next hrest =>
      cases hr.symm.trans hrest
      exact hex ⟨'<', _, hr, .inl rfl⟩
    all_goals
      cases h
      cases hword
  next hnil _ _ _ _ _ _ _ hgreater hless =>
    obtain ⟨b, r, hr⟩ := List.exists_cons_of_ne_nil hnil
    obtain ⟨⟨marks, c'⟩, -, h⟩ := bind_eq_ok.mp h
    obtain rfl := pure_eq_ok.mp h
    change lx.source[c.pos]? = some '<' ∨ lx.source[c.pos]? = some '>' at hangle
    rw [getElem?_of_drop (hc.1.symm.trans hr)] at hangle
    rcases hangle with hb | hb
    · exact hless r (by rw [hr, Option.some.inj hb])
    · exact hgreater r (by rw [hr, Option.some.inj hb])

/-- The token that is read is a process substitution before a hash exactly when the lexer
    stands before one. -/
theorem nextToken_subst_iff (hmode : lx.mode = .normal)
    (hpos : lx.pos ≤ lx.source.length) (h : nextToken lx = .ok out) :
    (IsProcessSubst lx.source out.token ∧ lx.source[out.token.span.stop]? = some '#') ↔
      SubstBeforeHash lx := by
  rw [nextToken, hmode] at h
  have hcursor := lexer_inSource hpos
  have hc := hcursor.reaches (skipBlanks_reaches lx.cursor)
  have hsubst : ∀ {b r}, (skipBlanks lx.cursor).rest = b :: '(' :: r → (b = '<' ∨ b = '>') →
      ((IsProcessSubst lx.source out.token ∧ lx.source[out.token.span.stop]? = some '#') ↔
        SubstBeforeHash lx) := by
    intro b r hr hb
    rw [nextNormalToken_subst hr hb] at h
    obtain ⟨⟨marks, c'⟩, hconsume, h⟩ := bind_eq_ok.mp h
    obtain rfl := pure_eq_ok.mp h
    obtain ⟨v, hv⟩ := (consumeProcessSubst_returns _ _).of_ok hconsume
    have hskip : (skipBlanks lx.cursor).Passes ((skipBlanks lx.cursor).skip 2) :=
      .skip (by decide) (by simp [hr])
    have hc' := hc.reaches (hskip.trans hv.passes).1
    have hget : lx.source[(skipBlanks lx.cursor).pos]? = some b :=
      getElem?_of_drop (hc.1.symm.trans hr)
    have hstart : IsProcessSubst lx.source
        ⟨.word false, spanFrom c' (skipBlanks lx.cursor).pos⟩ := by
      refine ⟨rfl, ?_⟩
      change lx.source[(skipBlanks lx.cursor).pos]? = _ ∨ lx.source[(skipBlanks lx.cursor).pos]? = _
      rw [hget]
      exact hb.imp (congrArg some) (congrArg some)
    have hstop : lx.source[c'.pos]? = c'.rest.head? := by rw [hc'.1, List.head?_drop]
    constructor
    · rintro ⟨-, hhash⟩
      exact ⟨⟨b, r, hr, hb⟩, marks, c', hconsume, hstop ▸ hhash⟩
    · rintro ⟨-, marks', c'', hconsume', hhash⟩
      rw [hconsume] at hconsume'
      cases hconsume'
      exact ⟨hstart, hstop.trans hhash⟩
  by_cases hex : ∃ b r, (skipBlanks lx.cursor).rest = b :: '(' :: r ∧ (b = '<' ∨ b = '>')
  · obtain ⟨b, r, hr, hb⟩ := hex
    exact hsubst hr hb
  · refine iff_of_false ?_ fun hs => hex hs.1
    rintro ⟨⟨hword, hangle⟩, -⟩
    exact not_subst hpos hex h ⟨hword, hangle⟩

/-- A run yields a process substitution before a hash exactly when it comes to stand before
    one. -/
theorem tokenizeLoop_subst_iff {n : Nat} {tokens : List Token}
    (hmode : lx.mode = .normal) (hpos : lx.pos ≤ lx.source.length)
    (h : tokenizeLoop n lx = .ok tokens) :
    (∃ t ∈ tokens, IsProcessSubst lx.source t ∧ lx.source[t.span.stop]? = some '#') ↔
      ∃ lx', Reached lx lx' ∧ SubstBeforeHash lx' := by
  induction n generalizing lx tokens with
  | zero => cases h
  | succ n ih =>
    obtain ⟨out, hout, h⟩ := bind_eq_ok.mp h
    have hfirst := nextToken_subst_iff hmode hpos hout
    have hread : Reads lx out := by
      have hnormal := hout
      rw [nextToken, hmode] at hnormal
      exact nextNormalToken_reads 2 hpos hnormal
    rcases hread.token with ⟨hend, hstart⟩ | ⟨hne, htoken, hlexer⟩
    · rw [if_pos hend] at h
      obtain rfl := pure_eq_ok.mp h
      refine iff_of_false ?_ ?_
      · rintro ⟨t, ht, -⟩
        cases ht
      · rintro ⟨lx', hreached, hsubst⟩
        cases hreached with
        | refl =>
          obtain ⟨⟨hword, -⟩, -⟩ := hfirst.mpr hsubst
          rw [hend] at hword
          cases hword
        | step hout' hne' =>
          rw [hout] at hout'
          cases hout'
          exact hne' hend
    · rw [if_neg hne] at h
      obtain ⟨rest, hrest, h⟩ := bind_eq_ok.mp h
      obtain rfl := pure_eq_ok.mp h
      have hmode' : out.lexer.mode = .normal := by rw [hlexer, hmode]
      have hsource : out.lexer.source = lx.source := by rw [hlexer]
      have hpos' : out.lexer.pos ≤ out.lexer.source.length := by
        rw [hlexer]
        exact htoken.bounded
      have hlater := ih hmode' hpos' hrest
      rw [hsource] at hlater
      constructor
      · rintro ⟨t, ht, hsubst⟩
        rcases List.mem_cons.mp ht with rfl | ht
        · exact ⟨lx, .refl lx, hfirst.mp hsubst⟩
        · obtain ⟨lx', hreached, hsubst⟩ := hlater.mp ⟨t, ht, hsubst⟩
          exact ⟨lx', .step hout hne hreached, hsubst⟩
      · rintro ⟨lx', hreached, hsubst⟩
        cases hreached with
        | refl => exact ⟨_, List.mem_cons_self, hfirst.mpr hsubst⟩
        | step hout' hne' hreached =>
          rw [hout] at hout'
          cases hout'
          obtain ⟨t, ht, hsubst⟩ := hlater.mpr ⟨lx', hreached, hsubst⟩
          exact ⟨t, List.mem_cons_of_mem _ ht, hsubst⟩

/-! ## 8. Coverage -/

/-- **The tokens of a source cover it up to fillers exactly where the lexer never stands before
    a process substitution with a hash directly behind it.** -/
theorem tokens_cover_iff {s : List Char} {tokens : List Token}
    (h : tokenize (Utf8.encode s) = .ok tokens) :
    (InOrder (Utf8.encode s) tokens ∧ FillsGaps (Utf8.encode s) tokens) ↔
      ∀ lx, Reached (.new (Utf8.encode s)) lx → ¬ SubstBeforeHash lx := by
  have hrun : Run (Utf8.encode s) 0 tokens := tokenizeLoop_run rfl (Nat.zero_le _) h
  have hsubst := tokenizeLoop_subst_iff rfl (Nat.zero_le _) h
  have hnone : (∀ lx, Reached (.new (Utf8.encode s)) lx → ¬ SubstBeforeHash lx) ↔
      ¬ ∃ t ∈ tokens, IsProcessSubst (Utf8.encode s) t ∧
        (Utf8.encode s)[t.span.stop]? = some '#' := by
    rw [show Utf8.encode s = (Lexer.new (Utf8.encode s)).source from rfl, hsubst]
    simp only [not_exists, not_and]
    rfl
  rw [hnone]
  constructor
  · rintro ⟨-, hfills⟩ ⟨t, ht, hsubst, hhash⟩
    have hne := hrun.nonempty t ht
    have hout := hrun.hash_outside ht hhash
    have hlt := (List.getElem?_eq_some_iff.mp hhash).1
    obtain ⟨p, q, hf, hp, hq, houtside, hword⟩ := hfills _ hlt hout
    have hlast : t.Covers (t.span.stop - 1) := ⟨by omega, by omega⟩
    have hstart : p = t.span.stop := by
      by_contra hne'
      exact houtside (t.span.stop - 1) (by omega) (by omega) t ht hlast
    exact hword (hstart ▸ hhash) (t.span.stop - 1) (by omega) ⟨t, ht, hsubst.1, hlast⟩
  · intro hnone
    refine ⟨hrun.inOrder (.inl rfl), ?_⟩
    intro i hi hout
    obtain ⟨a, b, hf, -, hai, hib, houtside, hcomment⟩ := hrun.fills (Nat.zero_le i) hi hout
    refine ⟨a, b, hf, hai, hib, houtside, ?_⟩
    intro hhash j hj hword
    obtain ⟨t, ht, hsubst, hend⟩ := hcomment hhash j hj hword
    exact hnone ⟨t, ht, hsubst, hend ▸ hhash⟩

/-- A hash inside a word, and a comment behind a blank. -/
def wordComment : List Char := "a#b # c".toList

theorem wordComment_covered :
    (InOrder (Utf8.encode wordComment) [⟨.word false, ⟨0, 3⟩⟩] ∧
      FillsGaps (Utf8.encode wordComment) [⟨.word false, ⟨0, 3⟩⟩]) ↔
    ∀ lx, Reached (.new (Utf8.encode wordComment)) lx → ¬ SubstBeforeHash lx :=
  tokens_cover_iff (by decide)

/-- The text behind a process substitution is lost as a comment. -/
theorem substComment_not_covered : ¬ ∀ (s : List Char) (tokens : List Token),
    tokenize (Utf8.encode s) = .ok tokens →
      InOrder (Utf8.encode s) tokens ∧ FillsGaps (Utf8.encode s) tokens := by
  intro h
  have htokens : tokenize (Utf8.encode "<(x)#y".toList) = .ok [⟨.word false, ⟨0, 4⟩⟩] := by decide
  obtain ⟨-, hfills⟩ := h _ _ htokens
  have hout : Outside [⟨.word false, ⟨0, 4⟩⟩] 4 := by
    intro t ht hcover
    obtain rfl := List.mem_singleton.mp ht
    exact absurd hcover.2 (by decide)
  obtain ⟨p, q, -, hp, hq, houtside, hword⟩ := hfills 4 (by decide) hout
  have hcover : (⟨.word false, ⟨0, 4⟩⟩ : Token).Covers 3 := ⟨by decide, by decide⟩
  have hstart : p = 4 := by
    by_contra hne
    exact houtside 3 (by omega) (by omega) _ List.mem_cons_self hcover
  subst hstart
  exact hword (by decide) 3 rfl ⟨_, List.mem_cons_self, rfl, hcover⟩

end Wasmsh.Lex

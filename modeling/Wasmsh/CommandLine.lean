import Wasmsh.WaitingParser

/-!
# The parser on a line of written words

A text that consists of written words with one blank between them is one simple command:
`parse_words` says that the parser gives back exactly the words, wherever the first of them
is no keyword and no assignment.
-/

open Wasmsh.Lex StateExcept

namespace Wasmsh.Parser

open Hir

variable {src : List Char} {depth : Nat} {t : Token} {ts : List Token}

/-! ## 1. A simple command -/

/-- A token after which a word is only a word. -/
def IsPassive (t : Token) : Prop := t.kind ≠ .lParen ∧ fdOperators.contains t.kind = false

theorem isWord_iff {k : TokenKind} : isWord k = true ↔ ∃ b, k = .word b := by
  cases k <;> simp [isWord]

theorem IsPassive.of_isWord (h : isWord t.kind = true) : IsPassive t := by
  rcases isWord_iff.mp h with ⟨b, hb⟩
  constructor
  · simp [hb]
  · rw [hb]
    cases b <;> decide

/-- The words of tokens. -/
def wordsOf (src : List Char) (ws : List Token) : List Word := ws.map fun t => wordOf (t.text src)

theorem isPassive_head {ws : List Token} {e : Token} (hws : ∀ t ∈ ws, isWord t.kind = true)
    (he : e.kind = .eof) : ∀ t ∈ (ws ++ [e]).head?, IsPassive t := by
  cases ws with
  | nil =>
    rintro t ht
    cases ht
    exact ⟨by simp [he], by rw [he]; decide⟩
  | cons w ws =>
    rintro t ht
    cases ht
    exact .of_isWord (hws w (.head _))

/-- The loop over the words of a simple command. -/
theorem faces_simpleCommandLoop {ws : List Token} {e : Token} (he : e.kind = .eof)
    (hws : ∀ t ∈ ws, isWord t.kind = true) {past : Bool}
    (hassign : past = true ∨ ∀ t ∈ ws.head?, isAssignmentText (t.text src) = false)
    (n : Nat) (hn : ws.length < n) :
    Yields (Faces src depth (ws ++ [e])) (simpleCommandLoop n past)
      ((wordsOf src ws).map .word) (Faces src depth [e]) := by
  induction ws generalizing past n with
  | nil =>
    rcases n with _ | n
    · cases hn
    exact (faces_part_end (by rw [he]; decide)).bind (.pure _)
  | cons w ws ih =>
    rcases n with _ | n
    · cases hn
    have hws' : ∀ t ∈ ws, isWord t.kind = true := fun t ht => hws t (.tail _ ht)
    have hloop := @ih hws' true (Or.inl rfl) n (Nat.lt_of_succ_lt_succ hn)
    have hpassive := isPassive_head hws' he
    have hhead : past = true ∨ isAssignmentText (w.text src) = false :=
      hassign.imp id fun h => h w rfl
    rw [List.cons_append]
    cases hrest : ws ++ [e] with
    | nil => simp at hrest
    | cons t' ts =>
      rw [hrest] at hloop hpassive
      have hnext := hpassive t' rfl
      apply (faces_part_word (hws w (.head _)) hnext.1 (by rw [hnext.2, Bool.and_false]) hhead).bind
      exact hloop.bind (.pure _)

theorem lowerSimpleCommand_words {ws : List Word} (hws : ws ≠ []) :
    lowerSimpleCommand (ws.map .word) = .exec ⟨ws, [], []⟩ := by
  simp [lowerSimpleCommand, List.filterMap_map, hws]

/-- The command that `ws` are the words of. -/
def simpleCommand (ws : List Word) : Command := .exec ⟨ws, [], []⟩

section

variable {w e : Token} {ws : List Token}

theorem faces_parseSimpleCommand (he : e.kind = .eof) (hws : ∀ t ∈ w :: ws, isWord t.kind = true)
    (hassign : isAssignmentText (w.text src) = false) (hlen : (w :: ws).length ≤ src.length) :
    Yields (Faces src depth (w :: ws ++ [e])) parseSimpleCommand
      (simpleCommand (wordsOf src (w :: ws))) (Faces src depth [e]) := by
  apply Yields.get_bind
  intro p hp
  rw [hp.source]
  have hloop : Yields (Faces src depth (w :: ws ++ [e])) (simpleCommandLoop (src.length + 2) false)
      ((wordsOf src (w :: ws)).map .word) (Faces src depth [e]) :=
    faces_simpleCommandLoop he hws (Or.inr fun t ht => by cases ht; exact hassign) _ (by omega)
  apply hloop.bind
  apply Yields.ite_neg
  · simp [wordsOf]
  rw [lowerSimpleCommand_words (by simp [wordsOf])]
  exact .pure _

theorem faces_parseCommandInner_words {command : Parse Command} (he : e.kind = .eof)
    (hws : ∀ t ∈ w :: ws, isWord t.kind = true) (hstart : startsCommand (w.text src) = true)
    (hlen : (w :: ws).length ≤ src.length) :
    Yields (Faces src depth (w :: ws ++ [e])) (parseCommandInner command)
      (simpleCommand (wordsOf src (w :: ws))) (Faces src depth [e]) := by
  simp only [startsCommand, Bool.and_eq_true, Option.isNone_iff_eq_none,
    Bool.not_eq_true'] at hstart
  have hpassive := isPassive_head (fun t ht => hws t (.tail _ ht)) he
  have hopens : Opens src w := .inl ⟨hws w (.head _), hstart.1.1, hstart.2⟩
  have hsimple := @faces_parseSimpleCommand src depth w e ws he hws hstart.1.2 hlen
  rw [List.cons_append] at hsimple ⊢
  cases hrest : ws ++ [e] with
  | nil => simp at hrest
  | cons t' ts =>
    rw [hrest] at hpassive hsimple
    exact faces_parseCommandInner hopens (hpassive t' rfl).1 hsimple

/-- The parser on a source whose first token is `w` and whose other tokens are `toks`. -/
theorem parse_command {text : String} {marks : List Mark} {lx : Lexer}
    {toks : List Token} {cmd : Command} (he : e.kind = .eof)
    (hw : Opens (Utf8.encode text.toList) w)
    (hfirst : nextToken (.new (Utf8.encode text.toList)) = .ok ⟨w, marks, lx⟩)
    (hrest : Feeds lx toks)
    (hinner : Yields (Faces (Utf8.encode text.toList) 1 (w :: toks))
      (parseCommandInner (parseCommand maxNestingDepth)) cmd
      (Faces (Utf8.encode text.toList) 1 [e])) :
    ∃ span, parse text = .ok (commandProgram cmd span) := by
  have hfaces : Faces (Utf8.encode text.toList) 0 (w :: toks)
      ⟨Utf8.encode text.toList, lx, w, [], 0, [], 0⟩ := ⟨rfl, rfl, rfl, toks, hrest, rfl⟩
  rcases faces_parseProgram hw he (faces_parseCommand (by decide) hinner) _ hfaces with
    ⟨prog, p', hrun, span, hprog⟩
  refine ⟨span, ?_⟩
  simp only [parse, new, hfirst, bind, Except.bind, hrun, pure, Except.pure, hprog]

end

/-! ## 2. The text of a line -/

/-- The bytes of words with a blank before each. -/
def tailBytes (ws : List (List Piece)) : List Char := ws.flatMap fun ps => ' ' :: bytesOf ps

/-- The bytes of a line of words. -/
def lineBytes (w : List Piece) (ws : List (List Piece)) : List Char := bytesOf w ++ tailBytes ws

/-- The tokens of words with a blank before each. -/
def tailTokens : Nat → List (List Piece) → List Token
  | _, [] => []
  | pos, ps :: ws =>
    wordToken (pos + 1) (bytesOf ps) :: tailTokens (pos + 1 + (bytesOf ps).length) ws

/-- What may follow a line of words: its end, or a byte that ends words other than an
    opening parenthesis. -/
def EndsLine (rest : List Char) : Prop := ∀ b ∈ rest.head?, isWordBreak b = true ∧ b ≠ '('

theorem endsWord_tailBytes (ps : List Piece) (ws : List (List Piece)) {rest : List Char}
    (hrest : EndsLine rest) : EndsWord ps (tailBytes ws ++ rest) := by
  cases ws with
  | nil => exact ⟨fun b hb => (hrest b hb).1, fun h => absurd rfl (hrest '(' h).2⟩
  | cons w ws =>
    constructor
    · rintro b hb
      cases hb
      decide
    · intro h
      cases h

theorem feeds_tailTokens (ws : List (List Piece)) (hws : ∀ ps ∈ ws, IsWord ps) (pos : Nat)
    {rest : List Char} (hrest : EndsLine rest) (hsrc : src.drop pos = tailBytes ws ++ rest)
    (hts : Feeds (lexerAt src (pos + (tailBytes ws).length)) ts) :
    Feeds (lexerAt src pos) (tailTokens pos ws ++ ts) := by
  induction ws generalizing pos with
  | nil => exact hts
  | cons ps ws ih =>
    have hbytes : tailBytes (ps :: ws) ++ rest = [' '] ++ bytesOf ps ++ (tailBytes ws ++ rest) := by
      simp [tailBytes]
    rcases nextToken_word (hws ps (.head _)) (Or.inr rfl) (hsrc.trans hbytes)
      (endsWord_tailBytes ps ws hrest) with ⟨marks, hnext⟩
    have hdrop : src.drop (pos + 1 + (bytesOf ps).length) = tailBytes ws ++ rest := by
      rw [Nat.add_assoc, ← List.drop_drop, hsrc, hbytes, Nat.add_comm]
      simp
    have hlen : pos + (tailBytes (ps :: ws)).length =
        pos + 1 + (bytesOf ps).length + (tailBytes ws).length := by
      simp only [tailBytes, List.flatMap_cons, List.length_append, List.length_cons]
      omega
    rw [hlen] at hts
    exact .cons hnext (ih (fun q hq => hws q (.tail _ hq)) _ hdrop hts)

theorem feeds_eof {pos : Nat} (hsrc : src.drop pos = []) :
    Feeds (lexerAt src pos) [⟨.eof, ⟨pos, pos⟩⟩] :=
  .cons (nextToken_eof hsrc) (.nil _)

/-- The text of a token is what it was made of. -/
theorem wordToken_text {pos : Nat} {text rest : List Char} (hsrc : src.drop pos = text ++ rest) :
    (wordToken pos text).text src = text := by
  simp [Token.text, wordToken, hsrc]

theorem text_tailTokens (ws : List (List Piece)) (pos : Nat) {rest : List Char}
    (hsrc : src.drop pos = tailBytes ws ++ rest) :
    (tailTokens pos ws).map (·.text src) = ws.map bytesOf := by
  induction ws generalizing pos with
  | nil => rfl
  | cons ps ws ih =>
    have hbytes : tailBytes (ps :: ws) ++ rest = ' ' :: (bytesOf ps ++ (tailBytes ws ++ rest)) := by
      simp [tailBytes]
    have hword : src.drop (pos + 1) = bytesOf ps ++ (tailBytes ws ++ rest) := by
      rw [← List.drop_drop, hsrc, hbytes, List.drop_one, List.tail_cons]
    have hdrop : src.drop (pos + 1 + (bytesOf ps).length) = tailBytes ws ++ rest := by
      rw [← List.drop_drop, hword, List.drop_left]
    simp only [tailTokens, List.map_cons, wordToken_text hword, ih _ hdrop]

theorem isWord_tailTokens (ws : List (List Piece)) (pos : Nat) :
    ∀ t ∈ tailTokens pos ws, isWord t.kind = true := by
  induction ws generalizing pos with
  | nil => simp [tailTokens]
  | cons ps ws ih =>
    intro t ht
    rcases List.mem_cons.mp ht with rfl | ht
    · rfl
    · exact ih _ t ht

theorem length_tailTokens (ws : List (List Piece)) (pos : Nat) :
    (tailTokens pos ws).length = ws.length := by
  induction ws generalizing pos with
  | nil => rfl
  | cons ps ws ih => rw [tailTokens, List.length_cons, List.length_cons, ih]

theorem length_le_tailBytes (ws : List (List Piece)) : ws.length ≤ (tailBytes ws).length := by
  induction ws with
  | nil => exact Nat.le_refl 0
  | cons ps ws ih =>
    simp only [tailBytes, List.flatMap_cons, List.length_append, List.length_cons] at ih ⊢
    omega

/-- The program of one simple command. -/
def simpleProgram (ws : List Word) (span : Span) : Program :=
  commandProgram (simpleCommand ws) span

/-- A text whose bytes are a line of written words is parsed to one simple command of these
    words. -/
theorem parse_words {text : String} {w : List Piece} {ws : List (List Piece)} (hw : IsWord w)
    (hws : ∀ ps ∈ ws, IsWord ps) (hstart : startsCommand (bytesOf w) = true)
    (htext : Utf8.encode text.toList = lineBytes w ws) :
    ∃ span, parse text =
      .ok (simpleProgram ((w :: ws).map fun ps => wordOf (bytesOf ps)) span) := by
  have hend : EndsLine [] := fun b hb => by cases hb
  have hdrop : (lineBytes w ws).drop 0 = [] ++ bytesOf w ++ (tailBytes ws ++ []) := by
    simp [lineBytes]
  rcases nextToken_word hw (Or.inl rfl) hdrop (endsWord_tailBytes w ws hend) with ⟨marks, hnext⟩
  have htail : (lineBytes w ws).drop (bytesOf w).length = tailBytes ws ++ [] := by
    simp [lineBytes]
  have heof : (lineBytes w ws).drop ((bytesOf w).length + (tailBytes ws).length) = [] := by
    simp [lineBytes]
  have hfeeds := feeds_tailTokens ws hws _ hend htail (feeds_eof heof)
  have hfirst : (wordToken 0 (bytesOf w)).text (lineBytes w ws) = bytesOf w :=
    wordToken_text (show (lineBytes w ws).drop 0 = bytesOf w ++ tailBytes ws from rfl)
  have hwords : wordsOf (lineBytes w ws) (wordToken 0 (bytesOf w) ::
      tailTokens (bytesOf w).length ws) = (w :: ws).map fun ps => wordOf (bytesOf ps) := by
    have htexts := congrArg (List.map wordOf) (text_tailTokens ws _ htail)
    simp only [List.map_map] at htexts
    simp only [wordsOf, List.map_cons, hfirst]
    exact congrArg _ htexts
  have hall : ∀ t ∈ wordToken 0 (bytesOf w) :: tailTokens (bytesOf w).length ws,
      isWord t.kind = true := by
    intro t ht
    rcases List.mem_cons.mp ht with rfl | ht
    · rfl
    · exact isWord_tailTokens ws _ t ht
  have hlen : (wordToken 0 (bytesOf w) :: tailTokens (bytesOf w).length ws).length ≤
      (lineBytes w ws).length := by
    have hone : 1 ≤ (bytesOf w).length := by
      rcases hw.bytes_eq_cons with ⟨b, r, hb, -⟩
      simp [hb]
    have hle := length_le_tailBytes ws
    simp only [List.length_cons, length_tailTokens, lineBytes, List.length_append]
    omega
  rw [← hfirst] at hstart
  rw [← hwords]
  rw [← htext] at hnext hfeeds hstart hlen ⊢
  simp only [List.length_nil, Nat.zero_add, Nat.add_zero] at hnext
  have hopens : Opens (Utf8.encode text.toList) (wordToken 0 (bytesOf w)) := by
    simp only [startsCommand, Bool.and_eq_true, Option.isNone_iff_eq_none] at hstart
    exact .inl ⟨rfl, hstart.1.1, hstart.2⟩
  exact parse_command rfl hopens hnext hfeeds (faces_parseCommandInner_words rfl hall hstart hlen)

end Wasmsh.Parser

import Wasmsh.Arguments

/-!
# The parser on an array literal

`name=(words)` is one assignment.  Its value is a word with a single literal part: the
texts of the words as they were written, quotes included, joined by blanks and put into
parentheses again.  A literal without words is not reached: `name=()` starts the definition
of a function, which then lacks its body.
-/

open Wasmsh.Lex StateExcept

namespace Wasmsh.Parser

open Hir

variable {t : List Char}

/-! ## 1. The tokens -/

/-- What stands before the `=` of an assignment to a name. -/
structure IsTarget (t : List Char) : Prop where
  text : IsPlainText (t ++ ['='])
  no_equals : '=' ∉ t
  assigns : isAssignmentText (t ++ ['=']) = true

theorem IsTarget.ascii (ht : IsTarget t) : ∀ c ∈ t, c.toNat < 0x80 := fun c hc =>
  ht.text.ascii c (List.mem_append_left _ hc)

variable {src : List Char} {depth : Nat}

/-- A parenthesis is a token of its own. -/
theorem nextToken_paren {pos : Nat} {b : Char} {kind : TokenKind} {rest : List Char}
    (hb : (b, kind) ∈ [('(', TokenKind.lParen), (')', .rParen)])
    (hsrc : src.drop pos = b :: rest) :
    nextToken (lexerAt src pos) = .ok ⟨⟨kind, ⟨pos, pos + 1⟩⟩, [], lexerAt src (pos + 1)⟩ := by
  have hskip : skipBlanks (lexerAt src pos).cursor = ⟨pos, b :: rest⟩ := by
    simp only [skipBlanks, Lexer.cursor, lexerAt, hsrc]
    simp only [List.mem_cons, Prod.mk.injEq, List.not_mem_nil, or_false] at hb
    rcases hb with ⟨rfl, rfl⟩ | ⟨rfl, rfl⟩
    · rfl
    · rfl
  show nextNormalToken 2 (lexerAt src pos) = _
  simp only [List.mem_cons, Prod.mk.injEq, List.not_mem_nil, or_false] at hb
  rcases hb with ⟨rfl, rfl⟩ | ⟨rfl, rfl⟩
  · simp only [nextNormalToken, hskip]
    rfl
  · simp only [nextNormalToken, hskip]
    rfl

/-- The bytes of an array literal with these words. -/
def literalBytes (t : List Char) (words : List Char) : List Char :=
  (t ++ ['=']) ++ '(' :: (words ++ [')'])

/-- The word of the target, before its parenthesis. -/
theorem nextToken_target {t rest : List Char} (ht : IsTarget t)
    (hsrc : src = (t ++ ['=']) ++ '(' :: rest) :
    ∃ marks, nextToken (.new src) = .ok ⟨wordToken 0 (t ++ ['=']), marks,
      lexerAt src (t ++ ['=']).length⟩ := by
  have hends : EndsWord (plainPieces (t ++ ['='])) ('(' :: rest) := by
    constructor
    · rintro b hb
      cases hb
      decide
    · intro _ b hb
      have hlast : (plainPieces (t ++ ['='])).getLast? = some (.plain '=') := by
        simp [plainPieces]
      rw [hlast] at hb
      cases hb
      decide
  have hdrop : src.drop 0 = [] ++ bytesOf (plainPieces (t ++ ['='])) ++ '(' :: rest := by
    rw [bytesOf_plainPieces]
    exact hsrc
  rcases nextToken_word ht.text.isWord (Or.inl rfl) hdrop hends with ⟨marks, hnext⟩
  rw [bytesOf_plainPieces] at hnext
  simp only [List.length_nil, Nat.zero_add, Nat.add_zero] at hnext
  exact ⟨marks, hnext⟩

/-- The words that mean something to the parser have no `=`. -/
theorem starts_target :
    keywordOf (t ++ ['=']) = none ∧ startsPipeline (t ++ ['=']) = true := by
  have hne : ∀ k : List Char, k.getLast? ≠ some '=' → t ++ ['='] ≠ k := by
    rintro k hk rfl
    simp at hk
  constructor
  · rw [keywordOf, List.lookup_eq_none_iff]
    intro p hp
    rw [bne_iff_ne]
    apply hne
    revert p
    decide
  · simp only [startsPipeline, Bool.and_eq_true, Bool.not_eq_true', bne_iff_ne]
    refine ⟨⟨?_, hne _ (by decide)⟩, hne _ (by decide)⟩
    rw [← Bool.not_eq_true, List.contains_iff_mem]
    intro hmem
    exact hne _ ((by decide : ∀ k ∈ terminatorWords, k.getLast? ≠ some '=') _ hmem) rfl

theorem opens_target {pos : Nat} {bytes : List Char}
    (htext : (wordToken pos bytes).text src = t ++ ['=']) : Opens src (wordToken pos bytes) :=
  .inl ⟨rfl, htext ▸ starts_target.1, htext ▸ starts_target.2⟩

/-! ## 2. The words of the literal -/

section

variable {w e : Token} {ts : List Token}

/-- The loop over the words of a literal. -/
theorem faces_collectElements (hts : ∀ t ∈ ts, isWord t.kind = true) (he : isWord e.kind = false)
    (hnewline : e.kind ≠ .newline) (rest : List Token) (n : Nat) (hn : ts.length < n) :
    Yields (Faces src depth (ts ++ e :: rest))
      (collect (do
        let p ← get
        if p.atKind .newline then do
          let _ ← advance
          return some none
        else if p.atWord then do
          let tok ← advance
          return some (some (tok.text p.source))
        else return none) n)
      (ts.map fun t => some (t.text src)) (Faces src depth (e :: rest)) := by
  induction ts generalizing n with
  | nil =>
    rcases n with _ | n
    · cases hn
    apply yields_collect_nil
    apply Yields.get_bind
    intro p hp
    apply Yields.ite_neg
    · simp [hp.atKind, hnewline]
    apply Yields.ite_neg
    · simp [hp.atWord, he]
    exact .pure _
  | cons t ts ih =>
    rcases n with _ | n
    · cases hn
    have hloop := ih (fun t' ht' => hts t' (.tail _ ht')) n (Nat.lt_of_succ_lt_succ hn)
    have ht := hts t (.head _)
    rw [List.cons_append]
    cases hrest : ts ++ e :: rest with
    | nil => simp at hrest
    | cons t' ts' =>
      rw [hrest] at hloop
      refine yields_collect_cons ?_ hloop
      apply Yields.get_bind
      intro p hp
      apply Yields.ite_neg
      · rw [atKind_of_isWord hp ht rfl]
        exact Bool.false_ne_true
      apply Yields.ite_pos
      · rw [hp.atWord, ht]
      rw [hp.source]
      exact faces_advance.bind (.pure _)

theorem faces_compoundElements (hts : ∀ t ∈ ts, isWord t.kind = true)
    (he : isWord e.kind = false) (hnewline : e.kind ≠ .newline) (rest : List Token)
    (hlen : ts.length ≤ src.length) :
    Yields (Faces src depth (ts ++ e :: rest)) compoundElements (ts.map fun t => t.text src)
      (Faces src depth (e :: rest)) := by
  have hloop : Yields (Faces src depth (ts ++ e :: rest)) (many (do
        let p ← get
        if p.atKind .newline then do
          let _ ← advance
          return some none
        else if p.atWord then do
          let tok ← advance
          return some (some (tok.text p.source))
        else return none)) (ts.map fun t => some (t.text src)) (Faces src depth (e :: rest)) := by
    apply Yields.get_bind
    intro p hp
    rw [hp.source]
    exact faces_collectElements hts he hnewline rest _ (by omega)
  have hresult : ts.map (fun t => t.text src) =
      (ts.map fun t => some (t.text src)).filterMap id := by
    simp [List.filterMap_map]
  rw [hresult]
  exact hloop.bind (.pure _)

/-! ## 3. The assignment -/

variable {t : List Char} {left right : Token}

/-- The value of an assignment is the literal as it was written. -/
def literalWord (src : List Char) (ts : List Token) : Word :=
  ⟨[.literal (compoundText (ts.map fun t => t.text src))]⟩

theorem faces_parseAssignment (ht : IsTarget t) (htext : w.text src = t ++ ['='])
    (hleft : left.kind = .lParen) (hright : right.kind = .rParen)
    (hts : ∀ t ∈ ts, isWord t.kind = true) (hlen : ts.length ≤ src.length) :
    Yields (Faces src depth (w :: left :: ts ++ [right, e])) parseAssignment
      ⟨textOf t, some (literalWord src ts)⟩ (Faces src depth [e]) := by
  have hvalue : Yields (Faces src depth (left :: ts ++ [right, e])) parseAssignmentCompoundValue
      (some (literalWord src ts)) (Faces src depth [e]) := by
    apply Yields.get_bind
    intro p hp
    apply Yields.ite_neg
    · rw [List.cons_append] at hp
      simp [hp.atKind, hleft]
    have hadvance : Yields (Faces src depth (left :: ts ++ [right, e])) advance left
        (Faces src depth (ts ++ [right, e])) := by
      cases hrest : ts ++ [right, e] with
      | nil => simp at hrest
      | cons t' ts' =>
        rw [List.cons_append, hrest]
        exact faces_advance
    have hclose : Yields (Faces src depth [right, e]) closeCompound () (Faces src depth [e]) := by
      apply Yields.get_bind
      intro p hp
      apply Yields.ite_pos
      · rw [hp.atKind, hright]
        decide
      exact faces_advance.bind (.pure _)
    apply hadvance.bind
    apply (faces_compoundElements hts (by rw [hright]; rfl) (by simp [hright]) [e] hlen).bind
    exact hclose.bind (.pure _)
  apply faces_advance.bind
  apply Yields.get_bind
  intro p hp
  have htake : (t ++ ['=']).takeWhile (· != '=') = t := by
    rw [List.takeWhile_append_of_pos]
    · simp
    · intro b hb
      rw [bne_iff_ne]
      rintro rfl
      exact ht.no_equals hb
  have hdrop : ((t ++ ['=']).dropWhile (· != '=')).drop 1 = [] := by
    rw [List.dropWhile_append_of_pos]
    · rfl
    · intro b hb
      rw [bne_iff_ne]
      rintro rfl
      exact ht.no_equals hb
  simp only [hp.source, htext, htake, hdrop]
  exact hvalue.bind (.pure _)

theorem faces_parseCommandInner_literal (command : Parse Command) (ht : IsTarget t)
    (hw : isWord w.kind = true) (htext : w.text src = t ++ ['=']) (hleft : left.kind = .lParen)
    (hright : right.kind = .rParen) (he : e.kind = .eof) (hne : ts ≠ [])
    (hts : ∀ t ∈ ts, isWord t.kind = true) (hlen : ts.length ≤ src.length) :
    Yields (Faces src depth (w :: left :: ts ++ [right, e])) (parseCommandInner command)
      (.assign [⟨textOf t, some (literalWord src ts)⟩] []) (Faces src depth [e]) := by
  have hfunction : Yields (Faces src depth (w :: (left :: ts ++ [right, e]))) atFunctionPosix false
      (Faces src depth (w :: (left :: ts ++ [right, e]))) := by
    have hpeek : Yields (Faces src depth (w :: (left :: ts ++ [right, e]))) (peekNth 0) left
        (Faces src depth (w :: (left :: ts ++ [right, e]))) := faces_peekNth rfl
    apply hpeek.bind
    apply Yields.ite_pos hleft
    cases ts with
    | nil => exact absurd rfl hne
    | cons first ts =>
      have hfirst : decide (first.kind = .rParen) = false := by
        rw [decide_eq_false_iff_not]
        intro hkind
        have hword := hts first (.head _)
        rw [hkind] at hword
        cases hword
      have hnext : Yields (Faces src depth (w :: (left :: first :: ts ++ [right, e]))) (peekNth 1)
          first (Faces src depth (w :: (left :: first :: ts ++ [right, e]))) := faces_peekNth rfl
      apply hnext.bind
      rw [hfirst]
      exact .pure _
  have hpart : Yields (Faces src depth (w :: (left :: ts ++ [right, e])))
      (parseSimpleCommandPart false)
      (some (.assignment ⟨textOf t, some (literalWord src ts)⟩)) (Faces src depth [e]) := by
    have hfd : fdOperators.contains left.kind = false := by
      rw [hleft]
      decide
    apply (faces_atFdPrefixRedirection hw).bind
    rw [hfd, Bool.and_false]
    apply Yields.ite_neg (by decide)
    apply Yields.get_bind
    intro p hp
    dsimp only
    apply Yields.ite_neg
    · have hless : p.atKind .less = false := atKind_of_isWord hp hw rfl
      have hgreater : p.atKind .greater = false := atKind_of_isWord hp hw rfl
      simp [hless, hgreater]
    apply (Yields.pure false).bind
    apply Yields.ite_neg (by decide)
    apply Yields.ite_neg
    · rw [State.atRedirection, hp.current]
      intro h
      rw [not_isWord_of_starts h] at hw
      cases hw
    apply Yields.ite_pos
    · rw [hp.atWord, hw]
    have hword : Yields (Faces src depth (w :: (left :: ts ++ [right, e])))
        (parseSimpleWordPart false)
        (.assignment ⟨textOf t, some (literalWord src ts)⟩) (Faces src depth [e]) := by
      apply Yields.get_bind
      intro p hp
      rw [hp.currentText, htext]
      apply Yields.ite_pos
      · rw [ht.assigns]
        rfl
      exact (faces_parseAssignment ht htext hleft hright hts hlen).bind (.pure _)
    exact hword.bind (.pure _)
  refine faces_parseCommandInner_word hw ?_ hfunction ?_
  · rw [htext]
    exact starts_target.1
  · apply Yields.get_bind
    intro p hp
    have hend : Yields (Faces src depth [e]) (simpleCommandLoop (p.source.length + 1) false) []
        (Faces src depth [e]) :=
      (faces_part_end (by rw [he]; decide)).bind (.pure _)
    have hloop : Yields (Faces src depth (w :: (left :: ts ++ [right, e])))
        (simpleCommandLoop (p.source.length + 2) false)
        [.assignment ⟨textOf t, some (literalWord src ts)⟩] (Faces src depth [e]) :=
      hpart.bind (hend.bind (.pure _))
    exact hloop.bind (.pure _)

end

/-- A target, a literal of written words. -/
theorem parse_literal {text : String} {w : List Piece} {ws : List (List Piece)}
    (ht : IsTarget t) (hw : IsWord w) (hws : ∀ ps ∈ ws, IsWord ps)
    (htext : Utf8.encode text.toList = literalBytes t (lineBytes w ws)) :
    ∃ span, parse text = .ok (commandProgram
      (.assign [⟨textOf t, some ⟨[.literal (compoundText ((w :: ws).map bytesOf))]⟩⟩] []) span) := by
  have hsrc : literalBytes t (lineBytes w ws) =
      (t ++ ['=']) ++ '(' :: (lineBytes w ws ++ [')']) := rfl
  generalize hbytes : literalBytes t (lineBytes w ws) = src at hsrc htext
  generalize hn : (t ++ ['=']).length = n
  rcases nextToken_target ht hsrc with ⟨marks, hfirst⟩
  have hopen : src.drop n = '(' :: (bytesOf w ++ (tailBytes ws ++ [')'])) := by
    rw [hsrc, ← hn, List.drop_left, lineBytes, List.append_assoc]
  have hword : src.drop (n + 1) = bytesOf w ++ (tailBytes ws ++ [')']) := by
    rw [← List.drop_drop, hopen]
    rfl
  have htail : src.drop (n + 1 + (bytesOf w).length) = tailBytes ws ++ [')'] := by
    rw [← List.drop_drop, hword, List.drop_left]
  have hclose : src.drop (n + 1 + (bytesOf w).length + (tailBytes ws).length) = [')'] := by
    rw [← List.drop_drop, htail, List.drop_left]
  have heof : src.drop (n + 1 + (bytesOf w).length + (tailBytes ws).length + 1) = [] := by
    rw [← List.drop_drop, hclose]
    rfl
  have hend : EndsLine [')'] := by
    rintro b hb
    cases hb
    decide
  rcases nextToken_word hw (Or.inl rfl) hword (endsWord_tailBytes w ws hend) with ⟨marks', hfirst'⟩
  simp only [List.length_nil, Nat.add_zero] at hfirst'
  have hfeeds := Feeds.cons (nextToken_paren (.head _) hopen) (.cons hfirst'
    (feeds_tailTokens ws hws _ hend htail
      (.cons (nextToken_paren (.tail _ (.head _)) hclose) (feeds_eof heof))))
  have htarget : (wordToken 0 (t ++ ['='])).text src = t ++ ['='] := wordToken_text hsrc
  have htexts : (wordToken (n + 1) (bytesOf w) ::
      tailTokens (n + 1 + (bytesOf w).length) ws).map (·.text src) = (w :: ws).map bytesOf := by
    rw [List.map_cons, wordToken_text hword, text_tailTokens ws _ htail]
    rfl
  have hwords : ∀ t ∈ wordToken (n + 1) (bytesOf w) ::
      tailTokens (n + 1 + (bytesOf w).length) ws, isWord t.kind = true := by
    intro t ht
    rcases List.mem_cons.mp ht with rfl | ht
    · rfl
    · exact isWord_tailTokens ws _ t ht
  have hlen : (wordToken (n + 1) (bytesOf w) ::
      tailTokens (n + 1 + (bytesOf w).length) ws).length ≤ src.length := by
    have hle := length_le_tailBytes ws
    simp only [List.length_cons, length_tailTokens, hsrc, lineBytes, List.length_append]
    omega
  rw [hn] at hfirst
  rw [← htext] at hfirst
  rw [← htexts]
  subst htext
  let stop := n + 1 + (bytesOf w).length + (tailBytes ws).length + 1
  refine parse_command (e := ⟨.eof, ⟨stop, stop⟩⟩) rfl (opens_target htarget) hfirst hfeeds ?_
  exact faces_parseCommandInner_literal _ ht rfl htarget rfl rfl rfl (by simp) hwords hlen

/-! ## 4. A literal without words -/

section

variable {n : Nat} {w e left right : Token} {toks : List Token}

/-- No command starts at the end of the source. -/
theorem fails_parseCommandInner_eof (command : Parse Command) (he : e.kind = .eof) :
    Fails (Faces src depth [e]) (parseCommandInner command) := by
  have hsimple : Fails (Faces src depth [e]) parseSimpleCommand := by
    apply Fails.get_bind
    intro p hp
    have hloop : Yields (Faces src depth [e]) (simpleCommandLoop (p.source.length + 2) false) []
        (Faces src depth [e]) :=
      (faces_part_end (by rw [he]; decide)).bind (.pure _)
    exact hloop.fails fun q _ => ⟨_, rfl⟩
  apply Fails.get_bind
  intro p hp
  simp only [hp.atKind, hp.atWord, he]
  exact hsimple

/-- A name before `()` is the name of a function, whose body is missing. -/
theorem fails_parseCommandInner_empty {command : Parse Command} (hw : isWord w.kind = true)
    (hkeyword : keywordOf (w.text src) = none) (hleft : left.kind = .lParen)
    (hright : right.kind = .rParen) (he : e.kind = .eof)
    (hcommand : Fails (Faces src depth [e]) command) :
    Fails (Faces src depth [w, left, right, e]) (parseCommandInner command) := by
  have hfunction : Yields (Faces src depth [w, left, right, e]) atFunctionPosix true
      (Faces src depth [w, left, right, e]) := by
    have hpeek : Yields (Faces src depth [w, left, right, e]) (peekNth 0) left
        (Faces src depth [w, left, right, e]) := faces_peekNth rfl
    have hnext : Yields (Faces src depth [w, left, right, e]) (peekNth 1) right
        (Faces src depth [w, left, right, e]) := faces_peekNth rfl
    apply hpeek.bind
    apply Yields.ite_pos hleft
    apply hnext.bind
    rw [hright]
    exact .pure _
  have hposix : Fails (Faces src depth [w, left, right, e]) (parseFunctionPosix command) := by
    apply Fails.get_bind
    intro p hp
    apply faces_advance.fails
    apply faces_advance.fails
    apply faces_advance.fails
    apply (faces_skipNewlines (by simp [he])).fails
    exact hcommand.bind
  apply Fails.get_bind
  intro p hp
  have hparen : p.atKind .lParen = false := atKind_of_isWord hp hw rfl
  have hbracket : p.atKind .dblLBracket = false := atKind_of_isWord hp hw rfl
  rw [if_neg (by simp [hparen]), if_neg (by simp [hbracket]), if_neg (by simp [hp.atWord, hw]),
    hp.currentText, hkeyword]
  apply hfunction.fails
  exact hposix

end

/-- **An empty literal is no assignment.** -/
theorem parse_empty_literal {text : String} (ht : IsTarget t)
    (htext : Utf8.encode text.toList = literalBytes t []) : ∃ e, parse text = .error e := by
  have hsrc : literalBytes t [] = (t ++ ['=']) ++ '(' :: [')'] := rfl
  generalize hbytes : literalBytes t [] = src at hsrc htext
  generalize hn : (t ++ ['=']).length = n
  rcases nextToken_target ht hsrc with ⟨marks, hfirst⟩
  have hopen : src.drop n = ['(', ')'] := by
    rw [hsrc, ← hn, List.drop_left]
  have hclose : src.drop (n + 1) = [')'] := by
    rw [← List.drop_drop, hopen]
    rfl
  have heof : src.drop (n + 1 + 1) = [] := by
    rw [← List.drop_drop, hclose]
    rfl
  have hfeeds := Feeds.cons (nextToken_paren (.head _) hopen)
    (.cons (nextToken_paren (.tail _ (.head _)) hclose) (feeds_eof heof))
  have htarget : (wordToken 0 (t ++ ['='])).text src = t ++ ['='] := wordToken_text hsrc
  have hbody : Fails (Faces src 1 [⟨.eof, ⟨n + 1 + 1, n + 1 + 1⟩⟩]) (parseCommand maxNestingDepth) :=
    Faces.fails_parseCommand (by decide) (fails_parseCommandInner_eof _ rfl)
  have hinner : Fails (Faces src 1 [wordToken 0 (t ++ ['=']), ⟨.lParen, ⟨n, n + 1⟩⟩,
      ⟨.rParen, ⟨n + 1, n + 1 + 1⟩⟩, ⟨.eof, ⟨n + 1 + 1, n + 1 + 1⟩⟩])
      (parseCommandInner (parseCommand maxNestingDepth)) :=
    fails_parseCommandInner_empty rfl (by rw [htarget]; exact starts_target.1) rfl rfl rfl hbody
  have hprogram := Faces.fails_parseProgram (opens_target htarget)
    (Faces.fails_parseCommand (by decide) hinner)
  rw [hn] at hfirst
  subst htext
  rcases hprogram ⟨Utf8.encode text.toList, lexerAt _ n, wordToken 0 (t ++ ['=']), [], 0, [], 0⟩
    ⟨rfl, rfl, rfl, _, hfeeds, rfl⟩ with ⟨e, he⟩
  refine ⟨e, ?_⟩
  simp only [parse, new, hfirst, bind, Except.bind, he]

end Wasmsh.Parser

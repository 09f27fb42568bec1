import Wasmsh.Library.Yields
import Wasmsh.WrittenWords

/-!
# The parser before its tokens

The parser is followed through what it sees of the source: the token it stands at, the
tokens it has read ahead and the tokens its lexer will give.  What it waits for is left open:
a command that no newline ends keeps its here-documents without their text.
-/

open Wasmsh.Lex StateExcept

namespace Wasmsh.Parser

open Hir

/-! ## 1. What the parser sees -/

/-- The next tokens of a lexer. -/
inductive Feeds : Lexer → List Token → Prop where
  | nil (lx : Lexer) : Feeds lx []
  | cons {lx : Lexer} {l : Lexed} {ts : List Token} (hl : nextToken lx = .ok l)
      (hts : Feeds l.lexer ts) : Feeds lx (l.token :: ts)

/-- A parser over the source `src`, so many commands deep, that has these tokens before it
    and waits for no here-document. -/
structure Sees (src : List Char) (depth : Nat) (toks : List Token) (p : State) : Prop where
  source : p.source = src
  nesting : p.nestingDepth = depth
  heredocs : p.pendingHeredocs = []
  stream : ∃ ts, Feeds p.lexer ts ∧ toks = p.current :: (p.peeked ++ ts)

/-- `Sees` for a parser that may wait for here-documents. -/
def Faces (src : List Char) (depth : Nat) (toks : List Token) (p : State) : Prop :=
  Sees src depth toks { p with pendingHeredocs := [] }

variable {src : List Char} {depth : Nat} {t t' : Token} {ts : List Token} {p : State}

theorem Faces.sees (h : Faces src depth ts p) :
    Sees src depth ts { p with pendingHeredocs := [] } := h

theorem Faces.source (h : Faces src depth ts p) : p.source = src := h.sees.source

theorem Faces.nesting (h : Faces src depth ts p) : p.nestingDepth = depth := h.sees.nesting

theorem Faces.stream (h : Faces src depth ts p) :
    ∃ toks, Feeds p.lexer toks ∧ ts = p.current :: (p.peeked ++ toks) := h.sees.stream

theorem Faces.of_stream {toks : List Token} (hsource : p.source = src)
    (hnesting : p.nestingDepth = depth) (hfeeds : Feeds p.lexer toks)
    (hts : ts = p.current :: (p.peeked ++ toks)) : Faces src depth ts p :=
  ⟨hsource, hnesting, rfl, toks, hfeeds, hts⟩

theorem Faces.current (h : Faces src depth (t :: ts) p) : p.current = t := by
  rcases h.stream with ⟨ts', -, heq⟩
  exact (List.cons.inj heq).1.symm

theorem Faces.atKind (h : Faces src depth (t :: ts) p) (kind : TokenKind) :
    p.atKind kind = decide (t.kind = kind) := by
  rw [State.atKind, h.current]

theorem Faces.atWord (h : Faces src depth (t :: ts) p) : p.atWord = isWord t.kind := by
  rw [State.atWord, h.current]

theorem Faces.currentText (h : Faces src depth (t :: ts) p) : p.currentText = t.text src := by
  rw [State.currentText, h.current, h.source]

theorem faces_advance :
    Yields (Faces src depth (t :: t' :: ts)) advance t (Faces src depth (t' :: ts)) := by
  intro p hp
  rcases hp.stream with ⟨rest, hfeeds, heq⟩
  rcases List.cons.inj heq with ⟨rfl, htail⟩
  unfold advance
  cases hpeeked : p.peeked with
  | cons tok toks =>
    rw [hpeeked, List.cons_append] at htail
    rcases List.cons.inj htail with ⟨rfl, rfl⟩
    exact ⟨_, rfl, .of_stream hp.source hp.nesting hfeeds rfl⟩
  | nil =>
    rw [hpeeked, List.nil_append] at htail
    subst htail
    cases hfeeds with
    | cons hl hts =>
      dsimp only
      rw [hl]
      exact ⟨_, rfl, .of_stream hp.source hp.nesting hts rfl⟩

/-- Reading ahead until `n` tokens are there. -/
theorem readAhead_faces {n : Nat} (hp : Faces src depth (t :: ts) p) (hn : n ≤ ts.length) :
    ∃ p', readAhead (n - p.peeked.length) p = (p', none) ∧ p'.peeked.take n = ts.take n ∧
      Faces src depth (t :: ts) p' := by
  generalize hk : n - p.peeked.length = k
  induction k generalizing p with
  | zero =>
    refine ⟨p, rfl, ?_, hp⟩
    rcases hp.stream with ⟨rest, -, heq⟩
    rw [(List.cons.inj heq).2, List.take_append_of_le_length (by omega)]
  | succ k ih =>
    rcases hp.stream with ⟨rest, hfeeds, heq⟩
    rcases List.cons.inj heq with ⟨rfl, htail⟩
    cases hfeeds with
    | nil =>
      rw [htail, List.append_nil] at hn
      omega
    | @cons _ l rest hl hrest =>
      have hfaces : Faces src depth (p.current :: ts)
          { p with lexer := l.lexer, peeked := p.peeked ++ [l.token] } :=
        .of_stream hp.source hp.nesting hrest (by simp [htail])
      have hk' : n - (p.peeked ++ [l.token]).length = k := by
        rw [List.length_append, List.length_singleton]
        omega
      rcases ih hfaces hk' with ⟨p', hread, htake, hp'⟩
      refine ⟨p', ?_, htake, hp'⟩
      simp only [readAhead, hl]
      exact hread

theorem getElem?_of_take {α : Type} {as bs : List α} {n : Nat}
    (h : as.take (n + 1) = bs.take (n + 1)) : as[n]? = bs[n]? := by
  have hget := congrArg (fun l => l[n]?) h
  simpa [List.getElem?_take] using hget

theorem faces_tryPeekNth {n : Nat} (ht' : ts[n]? = some t') :
    Yields (Faces src depth (t :: ts)) (tryPeekNth n) (some t') (Faces src depth (t :: ts)) := by
  intro p hp
  rcases List.getElem?_eq_some_iff.mp ht' with ⟨hlt, -⟩
  rcases readAhead_faces hp hlt with ⟨p', hread, htake, hp'⟩
  refine ⟨p', ?_, hp'⟩
  simp only [tryPeekNth, hread, getElem?_of_take htake, ht']

theorem faces_peekNth {n : Nat} (ht' : ts[n]? = some t') :
    Yields (Faces src depth (t :: ts)) (peekNth n) t' (Faces src depth (t :: ts)) := by
  intro p hp
  rcases List.getElem?_eq_some_iff.mp ht' with ⟨hlt, -⟩
  rcases readAhead_faces hp hlt with ⟨p', hread, htake, hp'⟩
  refine ⟨p', ?_, hp'⟩
  simp only [peekNth, hread, List.getD_eq_getElem?_getD, getElem?_of_take htake, ht',
    Option.getD_some]

theorem faces_nextIs (kind : TokenKind) :
    Yields (Faces src depth (t :: t' :: ts)) (nextIs kind) (decide (t'.kind = kind))
      (Faces src depth (t :: t' :: ts)) :=
  (faces_tryPeekNth rfl).bind (.pure _)

theorem faces_parseWord :
    Yields (Faces src depth (t :: t' :: ts)) parseWord (wordOf (t.text src), t.span)
      (Faces src depth (t' :: ts)) := by
  apply faces_advance.bind
  apply Yields.get_bind
  intro p hp
  rw [hp.source]
  exact .pure _

theorem atKind_of_isWord (hp : Faces src depth (t :: ts) p) (ht : isWord t.kind = true)
    {kind : TokenKind} (hkind : isWord kind = false) : p.atKind kind = false := by
  rw [hp.atKind]
  simp only [decide_eq_false_iff_not]
  rintro rfl
  rw [ht] at hkind
  cases hkind

/-! ## 2. Loops -/

section

variable {α : Type} {turn : Parse (Option α)} {a : α} {as : List α} {P Q R : State → Prop}

theorem yields_collect_nil (n : Nat) (h : Yields P turn none Q) :
    Yields P (collect turn (n + 1)) [] Q :=
  h.bind (.pure _)

theorem yields_collect_cons {n : Nat} (h : Yields P turn (some a) Q)
    (hrest : Yields Q (collect turn n) as R) : Yields P (collect turn (n + 1)) (a :: as) R :=
  h.bind (hrest.bind (.pure _))

/-- A loop that takes nothing. -/
theorem yields_many_nil (h : Yields P turn none Q) : Yields P (many turn) [] Q :=
  .get_bind fun p _ => yields_collect_nil (p.source.length + 1) h

/-- A loop of one turn, of whose result something is known. -/
theorem gives_many_one {A : α → Prop}
    (h : Gives P turn (fun r s => ∃ a, r = some a ∧ A a ∧ Q s)) (hend : Yields Q turn none R) :
    Gives P (many turn) (fun as s => ∃ a, as = [a] ∧ A a ∧ R s) := by
  apply Gives.get_bind
  intro p _
  apply h.bind
  rintro r s ⟨a, rfl, ha, hs⟩
  rcases Yields.bind (f := fun as => pure (a :: as)) (yields_collect_nil p.source.length hend)
    (.pure _) s hs with ⟨s', hrun, hs'⟩
  exact ⟨[a], s', hrun, a, rfl, ha, hs'⟩

end

/-- No newline to skip. -/
theorem faces_skipNewlines (ht : t.kind ≠ .newline) :
    Yields (Faces src depth (t :: ts)) skipNewlines () (Faces src depth (t :: ts)) := by
  have hturn : Yields (Faces src depth (t :: ts))
      (do if (← get).atKind .newline then return some (← advance) else return none)
      (none : Option Token) (Faces src depth (t :: ts)) := by
    apply Yields.get_bind
    intro p hp
    exact .ite_neg (by simp [hp.atKind, ht]) (.pure _)
  exact (yields_many_nil hturn).bind (.pure _)

/-! ## 3. A part of a simple command -/

/-- The descriptor that a word of one digit names. -/
def digitOf : List Char → Option Nat
  | [d] => if d.isDigit then some (d.toNat - '0'.toNat) else none
  | _ => none

theorem faces_atFdPrefixRedirection (ht : isWord t.kind = true) :
    Yields (Faces src depth (t :: t' :: ts)) atFdPrefixRedirection
      ((digitOf (t.text src)).isSome && fdOperators.contains t'.kind)
      (Faces src depth (t :: t' :: ts)) := by
  apply Yields.get_bind
  intro p hp
  rw [hp.atWord, hp.currentText, ht]
  split
  · next d _ htext =>
    rw [htext]
    by_cases hd : d.isDigit
    · apply Yields.ite_pos hd
      simp only [digitOf, hd, if_true, Option.isSome_some, Bool.true_and]
      exact (faces_tryPeekNth rfl).bind (.pure _)
    · apply Yields.ite_neg hd
      simp only [digitOf, hd, Bool.false_eq_true, if_false, Option.isSome_none, Bool.false_and]
      exact .pure _
  · next hno =>
    have hnone : digitOf (t.text src) = none := by
      unfold digitOf
      split
      · next d htext => exact absurd htext (hno d rfl)
      · rfl
    rw [hnone]
    exact .pure _

theorem faces_atFdPrefixRedirection_other (ht : isWord t.kind = false) :
    Yields (Faces src depth (t :: ts)) atFdPrefixRedirection false
      (Faces src depth (t :: ts)) := by
  apply Yields.get_bind
  intro p hp
  rw [hp.atWord, ht]
  exact .pure _

section

variable {past : Bool} {Q : State → Prop}

/-- The tokens that a redirection starts with. -/
def redirectionStarts : List TokenKind :=
  [.less, .greater, .greaterGreater, .greaterPipe, .lessLess, .lessLessDash, .lessLessLess,
    .lessGreater, .ampGreater, .ampGreaterGreater]

/-- What follows the test for a process substitution, where there is none. -/
theorem faces_noSubstitution {α : Type} {f : Bool → Parse α} {a : α} (c : Prop) [Decidable c]
    (ht' : t'.kind ≠ .lParen) (hf : Yields (Faces src depth (t :: t' :: ts)) (f false) a Q) :
    Yields (Faces src depth (t :: t' :: ts))
      (if c then peekIsLparen >>= f else pure false >>= f) a Q := by
  split
  · apply (faces_nextIs .lParen).bind
    rwa [decide_eq_false ht']
  · exact (Yields.pure false).bind hf

theorem fails_noSubstitution {α : Type} {f : Bool → Parse α} (c : Prop) [Decidable c]
    (ht' : t'.kind ≠ .lParen) (hf : Fails (Faces src depth (t :: t' :: ts)) (f false)) :
    Fails (Faces src depth (t :: t' :: ts))
      (if c then peekIsLparen >>= f else pure false >>= f) := by
  split
  · apply (faces_nextIs .lParen).fails
    rwa [decide_eq_false ht']
  · exact (Yields.pure false).fails hf

theorem not_isWord_of_starts (ht : redirectionStarts.contains t.kind = true) :
    isWord t.kind = false := by
  cases h : t.kind <;> rw [h] at ht <;> first | rfl | cases ht

theorem faces_part_word (ht : isWord t.kind = true) (ht' : t'.kind ≠ .lParen)
    (hfd : ((digitOf (t.text src)).isSome && fdOperators.contains t'.kind) = false)
    (hassign : past = true ∨ isAssignmentText (t.text src) = false) :
    Yields (Faces src depth (t :: t' :: ts)) (parseSimpleCommandPart past)
      (some (.word (wordOf (t.text src)))) (Faces src depth (t' :: ts)) := by
  have hpart : Yields (Faces src depth (t :: t' :: ts)) (parseSimpleWordPart past)
      (.word (wordOf (t.text src))) (Faces src depth (t' :: ts)) := by
    apply Yields.get_bind
    intro p hp
    rw [hp.currentText]
    apply Yields.ite_neg
    · rcases hassign with rfl | h
      · simp
      · simp [h]
    by_cases heq : (t.text src).getLast? = some '='
    · apply Yields.ite_pos heq
      apply (faces_nextIs .lParen).bind
      apply Yields.ite_neg
      · simp [ht']
      · exact faces_parseWord.bind (.pure _)
    · exact .ite_neg heq (faces_parseWord.bind (.pure _))
  apply (faces_atFdPrefixRedirection ht).bind
  apply Yields.ite_neg
  · rw [hfd]
    exact Bool.false_ne_true
  apply Yields.get_bind
  intro p hp
  apply faces_noSubstitution _ ht'
  apply Yields.ite_neg (by decide)
  apply Yields.ite_neg
  · rw [State.atRedirection, hp.current]
    intro h
    rw [not_isWord_of_starts h] at ht
    cases ht
  apply Yields.ite_pos
  · rw [hp.atWord, ht]
  exact hpart.bind (.pure _)

/-- The tokens at which a printed command may end. -/
def endKinds : List TokenKind := [.eof, .dblLBracket, .dblRBracket]

theorem faces_part_end (ht : t.kind ∈ endKinds) :
    Yields (Faces src depth (t :: ts)) (parseSimpleCommandPart past) none
      (Faces src depth (t :: ts)) := by
  have hkind : t.kind = .eof ∨ t.kind = .dblLBracket ∨ t.kind = .dblRBracket := by
    simpa [endKinds] using ht
  have hword : isWord t.kind = false := by
    rcases hkind with h | h | h <;> rw [h] <;> rfl
  apply (faces_atFdPrefixRedirection_other hword).bind
  apply Yields.ite_neg (by decide)
  apply Yields.get_bind
  intro p hp
  dsimp only
  apply Yields.ite_neg
  · rw [hp.atKind, hp.atKind]
    rcases hkind with h | h | h <;> rw [h] <;> decide
  apply (Yields.pure false).bind
  apply Yields.ite_neg (by decide)
  apply Yields.ite_neg
  · rw [State.atRedirection, hp.current]
    rcases hkind with h | h | h <;> rw [h] <;> decide
  apply Yields.ite_neg
  · rw [hp.atWord, hword]
    exact Bool.false_ne_true
  exact .pure _

end

/-! ## 4. The program -/

/-- The words that are no prefix of a pipeline and end no compound command. -/
def startsPipeline (text : List Char) : Bool :=
  !terminatorWords.contains text && text != "time".toList && text != "!".toList

/-- The words that a simple command may start with. -/
def startsCommand (text : List Char) : Bool :=
  (keywordOf text).isNone && !isAssignmentText text && startsPipeline text

/-- A token that a printed command starts with. -/
def Opens (src : List Char) (t : Token) : Prop :=
  isWord t.kind = true ∧ keywordOf (t.text src) = none ∧ startsPipeline (t.text src) = true ∨
    redirectionStarts.contains t.kind = true

section

variable {e : Token} {rest toks : List Token} {cmd : Command} {command : Parse Command}
  {Q : State → Prop} {n : Nat}

theorem Opens.atKind (ht : Opens src t) {p : State} (hp : Faces src depth (t :: ts) p)
    {kind : TokenKind} (hkind : isWord kind = false)
    (hkind' : redirectionStarts.contains kind = false) : p.atKind kind = false := by
  rw [hp.atKind, decide_eq_false_iff_not]
  rintro rfl
  rcases ht with ⟨hword, -⟩ | hstart
  · rw [hword] at hkind
    cases hkind
  · rw [hstart] at hkind'
    cases hkind'

theorem faces_parseCommandInner_word (ht : isWord t.kind = true)
    (hkeyword : keywordOf (t.text src) = none)
    (hfunction : Yields (Faces src depth (t :: ts)) atFunctionPosix false
      (Faces src depth (t :: ts)))
    (hsimple : Yields (Faces src depth (t :: ts)) parseSimpleCommand cmd Q) :
    Yields (Faces src depth (t :: ts)) (parseCommandInner command) cmd Q := by
  apply Yields.get_bind
  intro p hp
  apply Yields.ite_neg
  · rw [atKind_of_isWord hp ht rfl]
    exact Bool.false_ne_true
  apply Yields.ite_neg
  · rw [atKind_of_isWord hp ht rfl]
    exact Bool.false_ne_true
  apply Yields.ite_neg
  · simp [hp.atWord, ht]
  rw [hp.currentText, hkeyword]
  dsimp only
  apply hfunction.bind
  exact .ite_neg (by decide) hsimple

theorem faces_atFunctionPosix (ht' : t'.kind ≠ .lParen) :
    Yields (Faces src depth (t :: t' :: ts)) atFunctionPosix false
      (Faces src depth (t :: t' :: ts)) := by
  apply (faces_peekNth rfl).bind
  exact .ite_neg ht' (.pure _)

theorem faces_parseCommandInner (ht : Opens src t) (ht' : t'.kind ≠ .lParen)
    (hsimple : Yields (Faces src depth (t :: t' :: ts)) parseSimpleCommand cmd Q) :
    Yields (Faces src depth (t :: t' :: ts)) (parseCommandInner command) cmd Q := by
  rcases ht with ⟨hword, hkeyword, -⟩ | hstart
  · exact faces_parseCommandInner_word hword hkeyword (faces_atFunctionPosix ht') hsimple
  · apply Yields.get_bind
    intro p hp
    apply Yields.ite_neg
    · rw [Opens.atKind (.inr hstart) hp rfl rfl]
      exact Bool.false_ne_true
    apply Yields.ite_neg
    · rw [Opens.atKind (.inr hstart) hp rfl rfl]
      exact Bool.false_ne_true
    apply Yields.ite_pos
    · rw [hp.atWord, not_isWord_of_starts hstart]
      rfl
    exact hsimple

theorem fails_parseCommandInner (ht : Opens src t) (ht' : t'.kind ≠ .lParen)
    (hsimple : Fails (Faces src depth (t :: t' :: ts)) parseSimpleCommand) :
    Fails (Faces src depth (t :: t' :: ts)) (parseCommandInner command) := by
  apply Fails.get_bind
  intro p hp
  apply Fails.ite_neg
  · rw [ht.atKind hp rfl rfl]
    exact Bool.false_ne_true
  apply Fails.ite_neg
  · rw [ht.atKind hp rfl rfl]
    exact Bool.false_ne_true
  rcases ht with ⟨hword, hkeyword, -⟩ | hstart
  · apply Fails.ite_neg
    · simp [hp.atWord, hword]
    rw [hp.currentText, hkeyword]
    dsimp only
    apply (faces_atFunctionPosix ht').fails
    exact .ite_neg (by decide) hsimple
  · apply Fails.ite_pos
    · rw [hp.atWord, not_isWord_of_starts hstart]
      rfl
    exact hsimple

theorem faces_enterNesting (hdepth : depth < maxNestingDepth) :
    Yields (Faces src depth ts) enterNesting () (Faces src (depth + 1) ts) := by
  intro p hp
  have hle : ¬ maxNestingDepth ≤ p.nestingDepth := by
    rw [hp.nesting]
    exact Nat.not_le.mpr hdepth
  obtain ⟨toks, hfeeds, hts⟩ := hp.stream
  refine ⟨{ p with nestingDepth := p.nestingDepth + 1 }, by simp [enterNesting, hle], ?_⟩
  exact .of_stream hp.source (by rw [← hp.nesting]) hfeeds hts

theorem faces_parseCommand (hdepth : depth < maxNestingDepth)
    (hinner : Yields (Faces src (depth + 1) toks) (parseCommandInner (parseCommand n)) cmd
      (Faces src (depth + 1) ts)) :
    Yields (Faces src depth toks) (parseCommand (n + 1)) cmd (Faces src depth ts) := by
  have hexit : Yields (Faces src (depth + 1) ts) exitNesting () (Faces src depth ts) := by
    intro p hp
    obtain ⟨toks, hfeeds, hts⟩ := hp.stream
    refine ⟨{ p with nestingDepth := p.nestingDepth - 1 }, rfl, ?_⟩
    exact .of_stream hp.source (by rw [hp.nesting, Nat.add_sub_cancel]) hfeeds hts
  apply (faces_enterNesting hdepth).bind
  apply hinner.bind
  exact hexit.bind (.pure _)

theorem Faces.fails_parseCommand (hdepth : depth < maxNestingDepth)
    (hinner : Fails (Faces src (depth + 1) toks) (parseCommandInner (parseCommand n))) :
    Fails (Faces src depth toks) (parseCommand (n + 1)) :=
  (faces_enterNesting hdepth).fails hinner.bind

theorem faces_optionalWord (ht : Opens src t) {text : String}
    (hstart : ∀ x, startsPipeline x = true → x ≠ text.toList) :
    Yields (Faces src depth (t :: ts)) (optionalWord text) false (Faces src depth (t :: ts)) := by
  apply Yields.get_bind
  intro p hp
  apply Yields.ite_neg
  · rw [State.atWordEq, hp.atWord, hp.currentText]
    rcases ht with ⟨-, -, h⟩ | h
    · simp [hstart _ h]
    · simp [not_isWord_of_starts h]
  exact .pure _

theorem startsPipeline_ne {x : List Char} (h : startsPipeline x = true) :
    x ≠ "time".toList ∧ x ≠ "!".toList := by
  simp only [startsPipeline, Bool.and_eq_true, bne_iff_ne] at h
  exact ⟨h.1.2, h.2⟩

/-- None of the tokens at which a printed command ends goes on with it. -/
theorem atKind_end (he : e.kind ∈ endKinds) {p : State} (hp : Faces src depth (e :: rest) p)
    {kind : TokenKind} (hkind : kind ∉ endKinds) : p.atKind kind = false := by
  rw [hp.atKind, decide_eq_false_iff_not]
  rintro rfl
  exact hkind he

theorem faces_parsePipeline (ht : Opens src t) (he : e.kind ∈ endKinds)
    (hcommand : Yields (Faces src depth (t :: ts)) command cmd (Faces src depth (e :: rest))) :
    Yields (Faces src depth (t :: ts)) (parsePipeline command)
      ⟨false, false, false, [cmd], []⟩ (Faces src depth (e :: rest)) := by
  have hstages : Yields (Faces src depth (e :: rest)) (pipelineStages command) []
      (Faces src depth (e :: rest)) := by
    apply yields_many_nil
    apply Yields.get_bind
    intro p hp
    apply Yields.ite_neg
    · rw [atKind_end he hp (by decide), atKind_end he hp (by decide)]
      exact Bool.false_ne_true
    exact .pure _
  apply (faces_optionalWord ht fun x hx => (startsPipeline_ne hx).1).bind
  dsimp only
  apply Yields.ite_neg (by decide)
  apply (Yields.pure false).bind
  apply (faces_optionalWord ht fun x hx => (startsPipeline_ne hx).2).bind
  apply hcommand.bind
  exact hstages.bind (.pure _)

theorem Faces.fails_parsePipeline (ht : Opens src t)
    (hcommand : Fails (Faces src depth (t :: ts)) command) :
    Fails (Faces src depth (t :: ts)) (parsePipeline command) := by
  apply (faces_optionalWord ht fun x hx => (startsPipeline_ne hx).1).fails
  apply (Yields.pure false).fails
  apply (faces_optionalWord ht fun x hx => (startsPipeline_ne hx).2).fails
  exact hcommand.bind

/-- The list of one pipeline with one command. -/
def commandList (cmd : Command) : AndOr := ⟨⟨false, false, false, [cmd], []⟩, []⟩

theorem faces_parseAndOr (ht : Opens src t) (he : e.kind ∈ endKinds)
    (hcommand : Yields (Faces src depth (t :: ts)) command cmd (Faces src depth (e :: rest))) :
    Yields (Faces src depth (t :: ts)) (parseAndOr command) (commandList cmd)
      (Faces src depth (e :: rest)) := by
  apply (faces_parsePipeline ht he hcommand).bind
  have hrest : Yields (Faces src depth (e :: rest)) (many (do
      let p ← get
      if p.atKind .andAnd || p.atKind .orOr then do
        let _ ← advance
        skipNewlines
        return some (if p.atKind .andAnd then AndOrOp.and else .or, ← parsePipeline command)
      else return none)) [] (Faces src depth (e :: rest)) := by
    apply yields_many_nil
    apply Yields.get_bind
    intro p hp
    apply Yields.ite_neg
    · rw [atKind_end he hp (by decide), atKind_end he hp (by decide)]
      exact Bool.false_ne_true
    exact .pure _
  exact hrest.bind (.pure _)

/-- A command that no newline ends keeps the here-documents it waits for without their text. -/
theorem faces_parseCompleteCommand (ht : Opens src t) (he : e.kind ∈ endKinds)
    (hcommand : Yields (Faces src depth (t :: ts)) command cmd (Faces src depth (e :: rest))) :
    Gives (Faces src depth (t :: ts)) (parseCompleteCommand command)
      (fun cc p => cc.list = [commandList cmd] ∧ Faces src depth (e :: rest) p) := by
  have hturn : Yields (Faces src depth (e :: rest)) (completeCommandTurn command) none
      (Faces src depth (e :: rest)) := by
    apply Yields.get_bind
    intro p hp
    apply Yields.ite_pos
    · rw [atKind_end he hp (by decide)]
      rfl
    exact .pure _
  apply Gives.get_bind
  intro p₀ _
  apply (faces_parseAndOr ht he hcommand).gives
  apply (yields_many_nil hturn).gives
  apply Gives.get_bind
  intro p hp
  rw [atKind_end he hp (by decide), Bool.and_false, if_neg Bool.false_ne_true]
  apply Gives.pure
  intro p' hp'
  exact ⟨rfl, hp'⟩

theorem Faces.fails_parseCompleteCommand (ht : Opens src t)
    (hcommand : Fails (Faces src depth (t :: ts)) command) :
    Fails (Faces src depth (t :: ts)) (parseCompleteCommand command) := by
  apply Fails.get_bind
  intro p _
  apply Fails.bind
  apply Fails.bind
  exact Faces.fails_parsePipeline ht hcommand

theorem Opens.atCommandStart (ht : Opens src t) {p : State} (hp : Faces src depth (t :: ts) p) :
    p.atCommandStart = true := by
  rw [State.atCommandStart, hp.atWord, hp.currentText, State.atRedirection, hp.current]
  rcases ht with ⟨hword, -, hstart⟩ | hstart
  · simp only [startsPipeline, Bool.and_eq_true, Bool.not_eq_true'] at hstart
    rw [hword, hstart.1.1]
    simp
  · rw [not_isWord_of_starts hstart]
    split
    · rfl
    · exact hstart

theorem Opens.ne_newline (ht : Opens src t) : t.kind ≠ .newline := by
  intro h
  rcases ht with ⟨hword, -⟩ | hstart
  · rw [h] at hword
    cases hword
  · rw [h] at hstart
    cases hstart

/-- A turn of `parse_compound_list`. -/
def compoundTurn (command : Parse Command) : Parse (Option CompleteCommand) := do
  if (← get).atCommandStart then do
    let cc ← parseCompleteCommand command
    skipNewlines
    return some cc
  else return none

theorem faces_compoundTurn (ht : Opens src t) (he : e.kind ∈ endKinds)
    (hcommand : Yields (Faces src depth (t :: ts)) command cmd (Faces src depth (e :: rest))) :
    Gives (Faces src depth (t :: ts)) (compoundTurn command) (fun r p =>
      ∃ cc, r = some cc ∧ (∃ span, cc = ⟨[commandList cmd], span⟩) ∧
        Faces src depth (e :: rest) p) := by
  apply Gives.get_bind
  intro p hp
  rw [ht.atCommandStart hp, if_pos rfl]
  apply (faces_parseCompleteCommand ht he hcommand).bind
  rintro ⟨list, span⟩ p' ⟨rfl, hp'⟩
  have hnewline : e.kind ≠ .newline := by
    intro h
    rw [h] at he
    cases he
    contradiction
  obtain ⟨p'', hrun, hp''⟩ := Yields.bind
    (f := fun _ => pure (some (⟨[commandList cmd], span⟩ : CompleteCommand)))
    (faces_skipNewlines hnewline) (.pure _) p' hp'
  exact ⟨_, p'', hrun, _, rfl, ⟨span, rfl⟩, hp''⟩

theorem faces_parseCompoundList (ht : Opens src t) (he : e.kind = .eof ∨ e.kind = .dblRBracket)
    (hcommand : Yields (Faces src depth (t :: ts)) command cmd (Faces src depth (e :: rest))) :
    Gives (Faces src depth (t :: ts)) (parseCompoundList command)
      (fun ccs p => ∃ cc, ccs = [cc] ∧ (∃ span, cc = ⟨[commandList cmd], span⟩) ∧
        Faces src depth (e :: rest) p) := by
  have hend : e.kind ∈ endKinds := by
    rcases he with h | h <;> rw [h] <;> decide
  have hstop : Yields (Faces src depth (e :: rest)) (compoundTurn command) none
      (Faces src depth (e :: rest)) := by
    apply Yields.get_bind
    intro p hp
    have hno : p.atCommandStart = false := by
      rw [State.atCommandStart, hp.atKind, hp.atKind, hp.atWord, State.atRedirection, hp.current]
      rcases he with h | h <;> rw [h] <;> rfl
    rw [hno]
    exact .pure _
  apply (faces_skipNewlines ht.ne_newline).gives
  exact gives_many_one (faces_compoundTurn ht hend hcommand) hstop

/-- The program of one command; the span is that of its text. -/
def commandProgram (cmd : Command) (span : Span) : Program := ⟨[⟨[commandList cmd], span⟩]⟩

theorem commandProgram_inj {cmd' : Command} {span span' : Span}
    (h : commandProgram cmd span = commandProgram cmd' span') : cmd = cmd' := by
  injection h with hitems
  injection hitems with hitem
  injection hitem with hlist
  injection hlist with hlist
  injection hlist with hfirst
  injection hfirst with _ _ _ hcommands
  injection hcommands

theorem faces_parseProgram (ht : Opens src t) (he : e.kind = .eof)
    (hcommand : Yields (Faces src 0 (t :: ts)) (parseCommand (maxNestingDepth + 1)) cmd
      (Faces src 0 (e :: rest))) :
    Gives (Faces src 0 (t :: ts)) parseProgram
      (fun prog _ => ∃ span, prog = commandProgram cmd span) := by
  apply (faces_parseCompoundList ht (.inl he) hcommand).bind
  rintro ccs p ⟨cc, rfl, ⟨span, rfl⟩, hp⟩
  have heof : p.atKind .eof = true := by
    rw [hp.atKind, he]
    rfl
  have hread : ∀ f : State → Parse Program, (get >>= f) p = f p p := fun f => rfl
  refine ⟨commandProgram cmd span, p, ?_, span, rfl⟩
  rw [hread, if_pos heof]
  rfl

theorem Faces.fails_parseProgram (ht : Opens src t)
    (hcommand : Fails (Faces src 0 (t :: ts)) (parseCommand (maxNestingDepth + 1))) :
    Fails (Faces src 0 (t :: ts)) parseProgram := by
  apply Fails.bind
  apply (faces_skipNewlines ht.ne_newline).fails
  apply Fails.get_bind
  intro p _
  apply Fails.bind
  apply Fails.get_bind
  intro q hq
  apply Fails.ite_pos (ht.atCommandStart hq)
  exact (Faces.fails_parseCompleteCommand ht hcommand).bind

end

/-- The parser before the tokens of a source. -/
theorem new_faces (h : Feeds (lexerAt src 0) (t :: ts)) :
    ∃ p, new src = .ok p ∧ Faces src 0 (t :: ts) p := by
  cases h with
  | @cons _ l _ hl hts =>
    refine ⟨⟨src, l.lexer, l.token, [], 0, [], 0⟩, ?_, rfl, rfl, rfl, ts, hts, rfl⟩
    have hnew : nextToken (.new src) = .ok l := hl
    rw [new, hnew]

end Wasmsh.Parser

import Wasmsh.PrintedCommands

/-!
# The loop over the parts of a simple command

The turns of `parse_simple_command` on the tokens of printed items.  `faces_loop` says what
they add up to: a word of one digit is taken for the descriptor of a redirection behind it,
and a number that no descriptor is made of is a word.  `fails_loop` is for a redirection whose
word is a token of the extended test.
-/

open Wasmsh.Lex StateExcept

namespace Wasmsh.Parser

open Hir

variable {src : List Char} {depth : Nat} {t : Token} {i : Item}

/-! ## 1. One turn -/

section

variable {t t' : Token} {ts : List Token}

/-- The redirection of an operator of one token. -/
theorem faces_parseRedirection {op : RedirectionOp} (hop : redirectionOp t.kind = some op)
    {target next : Token} (htarget : isWord target.kind = true) :
    Yields (Faces src depth (t :: target :: next :: ts)) parseRedirection
      ⟨if t.kind == .ampGreater || t.kind == .ampGreaterGreater then some (2 ^ 32 - 1) else none,
        op, wordOf (target.text src), none⟩ (Faces src depth (next :: ts)) := by
  apply faces_advance.bind
  rw [hop]
  dsimp only
  apply Yields.get_bind
  intro p hp
  have hamp : p.atKind .amp = false := by
    rw [hp.atKind, decide_eq_false_iff_not]
    intro h
    rw [h] at htarget
    cases htarget
  apply Yields.ite_neg
  · rw [hamp]
    exact Bool.false_ne_true
  apply Yields.ite_neg
  · rw [hp.atWord, htarget]
    exact Bool.false_ne_true
  apply faces_parseWord.bind
  dsimp only
  split
  · apply Yields.bind (Q := Faces src depth (next :: ts)) (a := ⟨⟩)
    · intro q hq
      exact ⟨_, rfl, hq⟩
    · exact .pure _
  · exact .pure _

/-- A redirection without a word behind its operator. -/
theorem fails_parseRedirection {target : Token} (htarget : isWord target.kind = false)
    (hamp : target.kind ≠ .amp) :
    Fails (Faces src depth (t :: target :: ts)) parseRedirection := by
  apply faces_advance.fails
  dsimp only
  split
  · exact fun p _ => ⟨_, rfl⟩
  apply Fails.get_bind
  intro p hp
  have hno : p.atKind .amp = false := by
    rw [hp.atKind, decide_eq_false_iff_not]
    exact hamp
  rw [hno, Bool.false_and, if_neg Bool.false_ne_true, hp.atWord, htarget]
  exact fun p _ => ⟨_, rfl⟩

variable {amp : Token}

theorem faces_parseRedirection_amp (ht : t.kind = .greater ∨ t.kind = .less)
    (hamp : amp.kind = .amp) {target next : Token} (htarget : isWord target.kind = true) :
    Yields (Faces src depth (t :: amp :: target :: next :: ts)) parseRedirection
      ⟨none, if t.kind = .greater then .dupOutput else .dupInput, wordOf (target.text src), none⟩
      (Faces src depth (next :: ts)) := by
  obtain ⟨op, hop⟩ : ∃ op, redirectionOp t.kind = some op := by
    rcases ht with h | h <;> rw [h] <;> exact ⟨_, rfl⟩
  have hkind : (t.kind == .greater || t.kind == .less) = true := by
    rcases ht with h | h <;> rw [h] <;> rfl
  apply faces_advance.bind
  rw [hop]
  dsimp only
  apply Yields.get_bind
  intro p hp
  apply Yields.ite_pos
  · rw [hp.atKind, hamp, hkind]
    rfl
  apply faces_advance.bind
  apply Yields.get_bind
  intro q hq
  apply Yields.ite_pos
  · rw [hq.atWord, htarget]
  exact faces_parseWord.bind (.pure _)

theorem fails_parseRedirection_amp (ht : t.kind = .greater ∨ t.kind = .less)
    (hamp : amp.kind = .amp) {target : Token} (htarget : isWord target.kind = false) :
    Fails (Faces src depth (t :: amp :: target :: ts)) parseRedirection := by
  obtain ⟨op, hop⟩ : ∃ op, redirectionOp t.kind = some op := by
    rcases ht with h | h <;> rw [h] <;> exact ⟨_, rfl⟩
  have hkind : (t.kind == .greater || t.kind == .less) = true := by
    rcases ht with h | h <;> rw [h] <;> rfl
  apply faces_advance.fails
  rw [hop]
  dsimp only
  apply Fails.get_bind
  intro p hp
  have hyes : p.atKind .amp = true := by
    rw [hp.atKind, decide_eq_true_eq]
    exact hamp
  rw [hyes, hkind, Bool.and_true, if_pos rfl]
  apply faces_advance.fails
  apply Fails.get_bind
  intro q hq
  apply Fails.ite_neg
  · rw [hq.atWord, htarget]
    exact Bool.false_ne_true
  exact fun p _ => ⟨_, rfl⟩

end

/-- An operator is one token, or one that `&` follows. -/
theorem Operator.tokens_cases (o : Operator) :
    (∃ kind, o.tokens = [kind] ∧ redirectionOp kind = some o.meaning ∧
      (kind == .ampGreater || kind == .ampGreaterGreater) = o.both) ∨
    ∃ kind, o.tokens = [kind, .amp] ∧ (kind = .greater ∨ kind = .less) ∧
      o.meaning = (if kind = .greater then .dupOutput else .dupInput) ∧ o.both = false := by
  cases o
  case greaterAmp => exact .inr ⟨_, rfl, .inl rfl, rfl, rfl⟩
  case lessAmp => exact .inr ⟨_, rfl, .inr rfl, rfl, rfl⟩
  all_goals exact .inl ⟨_, rfl, rfl, rfl⟩

section

variable {o : Operator} {ops ts : List Token} {target next : Token}

theorem spells_tokens (hops : List.Forall₂ (Spells src) ops (o.tokens.map .op)) :
    ops.map Token.kind = o.tokens := by
  generalize o.tokens = kinds at hops
  induction kinds generalizing ops with
  | nil =>
    cases hops
    rfl
  | cons kind kinds ih =>
    cases hops with
    | cons h hops =>
      rw [List.map_cons, ih hops]
      exact congrArg (· :: kinds) h

theorem faces_operator (hops : List.Forall₂ (Spells src) ops (o.tokens.map .op))
    (htarget : isWord target.kind = true) :
    Yields (Faces src depth (ops ++ target :: next :: ts)) parseRedirection
      ⟨if o.both then some (2 ^ 32 - 1) else none, o.meaning, wordOf (target.text src), none⟩
      (Faces src depth (next :: ts)) := by
  have hkinds := spells_tokens hops
  rcases o.tokens_cases with ⟨kind, htokens, hop, hboth⟩ | ⟨kind, htokens, hkind, hop, hboth⟩
  · rw [htokens] at hkinds
    obtain ⟨t, rfl, ht⟩ := List.map_eq_singleton_iff.mp hkinds
    rw [← hboth, ← ht]
    rw [← ht] at hop
    exact faces_parseRedirection hop htarget
  · rw [htokens] at hkinds
    obtain ⟨t, ops', rfl, ht, hkinds⟩ := List.map_eq_cons_iff.mp hkinds
    obtain ⟨amp, rfl, hamp⟩ := List.map_eq_singleton_iff.mp hkinds
    rw [hop, hboth, ← ht]
    rw [← ht] at hkind
    exact faces_parseRedirection_amp hkind hamp htarget

theorem fails_operator (hops : List.Forall₂ (Spells src) ops (o.tokens.map .op))
    (htarget : isWord target.kind = false) (hamp : target.kind ≠ .amp) :
    Fails (Faces src depth (ops ++ target :: ts)) parseRedirection := by
  have hkinds := spells_tokens hops
  rcases o.tokens_cases with ⟨kind, htokens, -⟩ | ⟨kind, htokens, hkind, -⟩
  · rw [htokens] at hkinds
    obtain ⟨t, rfl, -⟩ := List.map_eq_singleton_iff.mp hkinds
    exact fails_parseRedirection htarget hamp
  · rw [htokens] at hkinds
    obtain ⟨t, ops', rfl, ht, hkinds⟩ := List.map_eq_cons_iff.mp hkinds
    obtain ⟨amp, rfl, hamp'⟩ := List.map_eq_singleton_iff.mp hkinds
    rw [← ht] at hkind
    exact fails_parseRedirection_amp hkind hamp' htarget

end

section

variable {t t' : Token} {ts : List Token} {past : Bool} {r : Redirection} {Q : State → Prop}

/-- `[n]op target` with its number. -/
theorem faces_part_fd {d : Nat} (ht : isWord t.kind = true) (hd : digitOf (t.text src) = some d)
    (ht' : fdOperators.contains t'.kind = true)
    (hredir : Yields (Faces src depth (t' :: ts)) parseRedirection r Q) :
    Yields (Faces src depth (t :: t' :: ts)) (parseSimpleCommandPart past)
      (some (.redirection { r with fd := some d })) Q := by
  have hvalue : ((t.text src).headD '0').toNat - '0'.toNat = d := by
    unfold digitOf at hd
    split at hd
    · next b htext =>
      rw [htext]
      split at hd
      · injection hd
      · cases hd
    · cases hd
  have hparse : Yields (Faces src depth (t :: t' :: ts)) parseFdPrefixedRedirection
      { r with fd := some d } Q := by
    apply faces_advance.bind
    apply Yields.get_bind
    intro p hp
    rw [hp.source]
    dsimp only
    rw [hvalue]
    exact hredir.bind (.pure _)
  apply (faces_atFdPrefixRedirection ht).bind
  apply Yields.ite_pos
  · rw [hd, ht']
    rfl
  exact hparse.bind (.pure _)

theorem fails_part_fd (ht : isWord t.kind = true) (hd : (digitOf (t.text src)).isSome = true)
    (ht' : fdOperators.contains t'.kind = true)
    (hredir : Fails (Faces src depth (t' :: ts)) parseRedirection) :
    Fails (Faces src depth (t :: t' :: ts)) (parseSimpleCommandPart past) := by
  have hparse : Fails (Faces src depth (t :: t' :: ts)) parseFdPrefixedRedirection := by
    apply faces_advance.fails
    apply Fails.get_bind
    intro p _
    exact hredir.bind
  apply (faces_atFdPrefixRedirection ht).fails
  apply Fails.ite_pos
  · rw [hd, ht']
    rfl
  exact hparse.bind

theorem faces_part_redirection (ht : redirectionStarts.contains t.kind = true)
    (ht' : t'.kind ≠ .lParen)
    (hredir : Yields (Faces src depth (t :: t' :: ts)) parseRedirection r Q) :
    Yields (Faces src depth (t :: t' :: ts)) (parseSimpleCommandPart past)
      (some (.redirection r)) Q := by
  apply (faces_atFdPrefixRedirection_other (not_isWord_of_starts ht)).bind
  apply Yields.ite_neg (by decide)
  apply Yields.get_bind
  intro p hp
  apply faces_noSubstitution _ ht'
  apply Yields.ite_neg (by decide)
  apply Yields.ite_pos
  · rw [State.atRedirection, hp.current]
    exact ht
  exact hredir.bind (.pure _)

theorem fails_part_redirection (ht : redirectionStarts.contains t.kind = true)
    (ht' : t'.kind ≠ .lParen)
    (hredir : Fails (Faces src depth (t :: t' :: ts)) parseRedirection) :
    Fails (Faces src depth (t :: t' :: ts)) (parseSimpleCommandPart past) := by
  apply (faces_atFdPrefixRedirection_other (not_isWord_of_starts ht)).fails
  apply Fails.ite_neg (by decide)
  apply Fails.get_bind
  intro p hp
  apply fails_noSubstitution _ ht'
  apply Fails.ite_neg (by decide)
  apply Fails.ite_pos
  · rw [State.atRedirection, hp.current]
    exact ht
  exact hredir.bind

end

/-! ## 2. All turns -/

namespace Item

/-- The item with the bytes of its text as characters. -/
def asBytes : Item → Item
  | word w => word (Utf8.encode w)
  | redirection r => redirection { r with target := Utf8.encode r.target }

/-- What a turn adds for an item. -/
def part : Item → SimplePart
  | word w => .word (writtenWord w)
  | redirection r => .redirection r.value

/-- The item without a number that no descriptor is made of. -/
def split : Item → List Item
  | word w => [word w]
  | redirection r =>
    match r.fd with
    | none => [redirection r]
    | some n =>
      if n < 10 ∧ r.op.both = false then [redirection r]
      else [word (Nat.toDigits 10 n), redirection { r with fd := none }]

/-- The number of the item is one digit, before an operator that takes one. -/
def Fits : Item → Prop
  | word _ => True
  | redirection r => ∀ n ∈ r.fd, n < 10 ∧ r.op.both = false

/-- The word of the item is not one of the tokens of the extended test. -/
def NoBracket (i : Item) : Prop := i.content ≠ ['[', '['] ∧ i.content ≠ [']', ']']

end Item

/-- Words of one digit become the descriptors of the redirections behind them. -/
def absorb : List Item → List Item
  | .word w :: .redirection ⟨none, op, target⟩ :: items =>
    if (digitOf w).isSome ∧ op.both = false then
      .redirection ⟨digitOf w, op, target⟩ :: absorb items
    else .word w :: absorb (.redirection ⟨none, op, target⟩ :: items)
  | i :: items => i :: absorb items
  | [] => []

/-- What the parser takes the items for. -/
def taken (items : List Item) : List Item := absorb (items.flatMap Item.split)

theorem lexemes_split (i : Item) : i.split.flatMap Item.lexemes = i.lexemes := by
  cases i with
  | word w => simp [Item.split]
  | redirection r =>
    rcases r with ⟨_ | n, op, target⟩
    · simp [Item.split]
    · simp only [Item.split]
      split
      · simp
      · simp [Item.lexemes, encode_toDigits]

theorem lexemes_flatMap_split (items : List Item) :
    (items.flatMap Item.split).flatMap Item.lexemes = items.flatMap Item.lexemes := by
  rw [List.flatMap_assoc]
  exact List.flatMap_congr fun i _ => lexemes_split i

theorem fits_split (i : Item) : ∀ j ∈ i.split, j.Fits := by
  cases i with
  | word w => simp [Item.split, Item.Fits]
  | redirection r =>
    rcases r with ⟨_ | n, op, target⟩
    · simp [Item.split, Item.Fits]
    · simp only [Item.split]
      split
      · next h => simpa [Item.Fits] using h
      · simp [Item.Fits]

theorem wordKind_cases (t : List Char) : t = ['[', '['] ∧ wordKind t = .dblLBracket ∨
    t = [']', ']'] ∧ wordKind t = .dblRBracket ∨
    (t ≠ ['[', '['] ∧ t ≠ [']', ']']) ∧ isWord (wordKind t) = true := by
  by_cases hopen : t = ['[', '[']
  · rw [hopen]
    exact .inl ⟨rfl, rfl⟩
  · by_cases hclose : t = [']', ']']
    · rw [hclose]
      exact .inr (.inl ⟨rfl, rfl⟩)
    · refine .inr (.inr ⟨⟨hopen, hclose⟩, ?_⟩)
      simp [wordKind, plainWordTokenKind, hopen, hclose, isWord]

theorem encode_eq_iff {w t : List Char} (ht : Utf8.encode t = t) : Utf8.encode w = t ↔ w = t := by
  constructor
  · intro h
    have htext := congrArg Utf8.decode (h.trans ht.symm)
    rwa [Utf8.decode_encode, Utf8.decode_encode] at htext
  · rintro rfl
    exact ht

theorem Item.NoBracket.isWord (h : i.NoBracket)
    (ht : t.kind = wordKind (Utf8.encode i.content)) : Parser.isWord t.kind = true := by
  have hopen : Utf8.encode ['[', '['] = ['[', '['] := rfl
  have hclose : Utf8.encode [']', ']'] = [']', ']'] := rfl
  rw [ht]
  rcases wordKind_cases (Utf8.encode i.content) with ⟨h', -⟩ | ⟨h', -⟩ | ⟨-, h'⟩
  · exact absurd ((encode_eq_iff hopen).mp h') h.1
  · exact absurd ((encode_eq_iff hclose).mp h') h.2
  · exact h'

section

variable {items : List Item} {toks ls : List Token}

theorem spells_cons {l : Lexeme} {ls : List Lexeme}
    (h : List.Forall₂ (Spells src) toks (l :: ls)) :
    ∃ t ts, toks = t :: ts ∧ Spells src t l ∧ List.Forall₂ (Spells src) ts ls := by
  cases h with
  | cons ht hts => exact ⟨_, _, rfl, ht, hts⟩

theorem spells_append {ls ls' : List Lexeme} (h : List.Forall₂ (Spells src) toks (ls ++ ls')) :
    ∃ ts ts', toks = ts ++ ts' ∧ List.Forall₂ (Spells src) ts ls ∧
      List.Forall₂ (Spells src) ts' ls' := by
  refine ⟨toks.take ls.length, toks.drop ls.length, (List.take_append_drop _ _).symm, ?_, ?_⟩
  · exact List.forall₂_take_append toks ls ls' h
  · exact List.forall₂_drop_append toks ls ls' h

/-- The tokens of a redirection without a number. -/
theorem spells_redirection {op : Operator} {target : List Char} {ls : List Lexeme}
    (h : List.Forall₂ (Spells src) toks
      ((Item.redirection ⟨none, op, target⟩).lexemes ++ ls)) :
    ∃ ops t ts, toks = ops ++ t :: ts ∧ List.Forall₂ (Spells src) ops (op.tokens.map .op) ∧
      Spells src t (.word (Utf8.encode target)) ∧ List.Forall₂ (Spells src) ts ls := by
  rw [show (Item.redirection ⟨none, op, target⟩).lexemes ++ ls =
    op.tokens.map .op ++ (.word (Utf8.encode target) :: ls) by simp [Item.lexemes]] at h
  obtain ⟨ops, ts', rfl, hops, h⟩ := spells_append h
  obtain ⟨t, ts, rfl, ht, hts⟩ := spells_cons h
  exact ⟨ops, t, ts, rfl, hops, ht, hts⟩

theorem fdOperators_wordKind (t : List Char) :
    fdOperators.contains (wordKind t) = false ∧ wordKind t ≠ .lParen := by
  rcases wordKind_cases t with ⟨-, h⟩ | ⟨-, h⟩ | ⟨-, h⟩
  · rw [h]
    decide
  · rw [h]
    decide
  · obtain ⟨b, hb⟩ := isWord_iff.mp h
    rw [hb]
    cases b <;> decide

/-- The token behind items that are read is an operator with a descriptor only where the next
    item is a redirection without a number. -/
theorem next_kind {t e : Token} {ts rest : List Token} (he : e.kind ∈ endKinds)
    (htoks : List.Forall₂ (Spells src) toks (items.flatMap Item.lexemes))
    (ht : toks ++ e :: rest = t :: ts) : t.kind ≠ .lParen ∧
      (fdOperators.contains t.kind = true → ∃ op target items',
        items = .redirection ⟨none, op, target⟩ :: items' ∧ op.both = false) := by
  cases items with
  | nil =>
    cases htoks
    injection ht with ht
    rw [← ht]
    have hkinds : e.kind = .eof ∨ e.kind = .dblLBracket ∨ e.kind = .dblRBracket := by
      simpa [endKinds] using he
    rcases hkinds with h | h | h <;> rw [h] <;> exact ⟨by decide, fun h => absurd h (by decide)⟩
  | cons i items =>
    have hword : ∀ (x : List Char) (ls : List Lexeme),
        List.Forall₂ (Spells src) toks (.word x :: ls) →
        t.kind ≠ .lParen ∧ fdOperators.contains t.kind = false := by
      intro x ls h
      obtain ⟨t', ts', rfl, ht', -⟩ := spells_cons h
      injection ht with ht
      rw [← ht, ht'.1]
      exact ⟨(fdOperators_wordKind x).2, (fdOperators_wordKind x).1⟩
    have hno : t.kind ≠ .lParen ∧ fdOperators.contains t.kind = false → t.kind ≠ .lParen ∧
        (fdOperators.contains t.kind = true → ∃ op target items',
          i :: items = .redirection ⟨none, op, target⟩ :: items' ∧ op.both = false) := by
      rintro ⟨h, h'⟩
      refine ⟨h, fun hyes => ?_⟩
      rw [h'] at hyes
      cases hyes
    rw [List.flatMap_cons] at htoks
    cases i with
    | word w => exact hno (hword _ _ htoks)
    | redirection r =>
      rcases r with ⟨_ | n, op, target⟩
      · obtain ⟨ops, t', ts', rfl, hops, -⟩ := spells_redirection htoks
        have hkinds := spells_tokens hops
        cases ops with
        | nil => cases op <;> cases hkinds
        | cons t₀ ops =>
          injection ht with ht
          rw [← ht]
          refine ⟨?_, fun hfd => ⟨op, target, items, rfl, ?_⟩⟩
          · intro h
            rw [List.map_cons, h] at hkinds
            cases op <;> cases hkinds
          · cases op <;> injection hkinds with h <;> rw [h] at hfd <;> first | rfl | cases hfd
      · exact hno (hword _ _ htoks)

end

section

variable {op : Operator} {ops ts : List Token} {t target next : Token} {past : Bool}

/-- The tokens of an operator, before its word. -/
theorem operator_tokens (hops : List.Forall₂ (Spells src) ops (op.tokens.map .op))
    (htarget : target.kind ≠ .lParen) : ∃ t₀ t₁ ts', ops ++ target :: ts = t₀ :: t₁ :: ts' ∧
      redirectionStarts.contains t₀.kind = true ∧ t₁.kind ≠ .lParen ∧
      (op.both = false → fdOperators.contains t₀.kind = true) := by
  have hkinds := spells_tokens hops
  have hstart : ∀ kind ∈ op.tokens.head?, redirectionStarts.contains kind = true ∧
      (op.both = false → fdOperators.contains kind = true) := by
    cases op <;> decide
  rcases op.tokens_cases with ⟨kind, htokens, -⟩ | ⟨kind, htokens, -⟩
  · rw [htokens] at hkinds hstart
    obtain ⟨t₀, rfl, ht₀⟩ := List.map_eq_singleton_iff.mp hkinds
    have hfirst := hstart kind rfl
    rw [← ht₀] at hfirst
    exact ⟨t₀, target, ts, rfl, hfirst.1, htarget, hfirst.2⟩
  · rw [htokens] at hkinds hstart
    obtain ⟨t₀, ops', rfl, ht₀, hkinds⟩ := List.map_eq_cons_iff.mp hkinds
    obtain ⟨amp, rfl, hamp⟩ := List.map_eq_singleton_iff.mp hkinds
    have hfirst := hstart kind rfl
    rw [← ht₀] at hfirst
    refine ⟨t₀, amp, target :: ts, rfl, hfirst.1, ?_, hfirst.2⟩
    rw [hamp]
    decide

theorem ne_lParen_of_isWord (ht : isWord t.kind = true) : t.kind ≠ .lParen := by
  intro h
  rw [h] at ht
  cases ht

theorem faces_part_operator (hops : List.Forall₂ (Spells src) ops (op.tokens.map .op))
    (htarget : isWord target.kind = true) :
    Yields (Faces src depth (ops ++ target :: next :: ts)) (parseSimpleCommandPart past)
      (some (.redirection ⟨if op.both then some (2 ^ 32 - 1) else none, op.meaning,
        wordOf (target.text src), none⟩)) (Faces src depth (next :: ts)) := by
  have hparse := @faces_operator src depth op ops ts target next hops htarget
  obtain ⟨t₀, t₁, ts', heq, hstart, hparen, -⟩ :=
    @operator_tokens src op ops (next :: ts) target hops (ne_lParen_of_isWord htarget)
  rw [heq] at hparse ⊢
  exact faces_part_redirection hstart hparen hparse

theorem fails_part_operator (hops : List.Forall₂ (Spells src) ops (op.tokens.map .op))
    (htarget : isWord target.kind = false) (hamp : target.kind ≠ .amp)
    (hparen : target.kind ≠ .lParen) :
    Fails (Faces src depth (ops ++ target :: ts)) (parseSimpleCommandPart past) := by
  have hparse := @fails_operator src depth op ops ts target hops htarget hamp
  obtain ⟨t₀, t₁, ts', heq, hstart, hparen', -⟩ := @operator_tokens src op ops ts target hops hparen
  rw [heq] at hparse ⊢
  exact fails_part_redirection hstart hparen' hparse

theorem faces_part_fdOperator {d : Nat} (ht : isWord t.kind = true)
    (hd : digitOf (t.text src) = some d) (hboth : op.both = false)
    (hops : List.Forall₂ (Spells src) ops (op.tokens.map .op))
    (htarget : isWord target.kind = true) :
    Yields (Faces src depth (t :: (ops ++ target :: next :: ts))) (parseSimpleCommandPart past)
      (some (.redirection ⟨some d, op.meaning, wordOf (target.text src), none⟩))
      (Faces src depth (next :: ts)) := by
  have hparse := @faces_operator src depth op ops ts target next hops htarget
  obtain ⟨t₀, t₁, ts', heq, -, -, hfd⟩ :=
    @operator_tokens src op ops (next :: ts) target hops (ne_lParen_of_isWord htarget)
  rw [heq] at hparse ⊢
  exact faces_part_fd ht hd (hfd hboth) hparse

theorem fails_part_fdOperator (ht : isWord t.kind = true)
    (hd : (digitOf (t.text src)).isSome = true) (hboth : op.both = false)
    (hops : List.Forall₂ (Spells src) ops (op.tokens.map .op))
    (htarget : isWord target.kind = false) (hamp : target.kind ≠ .amp)
    (hparen : target.kind ≠ .lParen) :
    Fails (Faces src depth (t :: (ops ++ target :: ts))) (parseSimpleCommandPart past) := by
  have hparse := @fails_operator src depth op ops ts target hops htarget hamp
  obtain ⟨t₀, t₁, ts', heq, -, -, hfd⟩ := @operator_tokens src op ops ts target hops hparen
  rw [heq] at hparse ⊢
  exact fails_part_fd ht hd (hfd hboth) hparse

end

/-- An item that can be read: its word is not one of the tokens of the extended test, and its
    number is a single digit. -/
structure Item.Readable (i : Item) : Prop where
  plain : IsPlain i.content
  no_bracket : i.NoBracket
  fits : i.Fits

/-- The token of a word that is read. -/
theorem Item.Readable.word_token (h : i.Readable)
    (ht : Spells src t (.word (Utf8.encode i.content))) :
    Parser.isWord t.kind = true ∧ wordOf (t.text src) = writtenWord (Utf8.encode i.content) := by
  refine ⟨h.no_bracket.isWord ht.1, ?_⟩
  rw [ht.2]
  exact wordOf_bare h.plain.bytes

theorem digitOf_toDigits {n : Nat} (hn : n < 10) : digitOf (Nat.toDigits 10 n) = some n := by
  have hdigit : ∀ n < 10, digitOf [n.digitChar] = some n := by decide
  rw [Nat.toDigits_of_lt_base hn]
  exact hdigit n hn

theorem digitOf_not_ascii {b : Char} (hb : 0x80 ≤ b.toNat) (t : List Char) :
    digitOf (b :: t) = none := by
  cases t with
  | nil =>
    have hdigit : b.isDigit = false := by
      rw [Char.isDigit, Bool.and_eq_false_iff, decide_eq_false_iff_not, decide_eq_false_iff_not]
      refine .inr fun h => ?_
      have hle : b.toNat ≤ 57 := h
      omega
    rw [digitOf, hdigit]
    rfl
  | cons c t => rfl

/-- A word of one digit is one byte. -/
theorem digitOf_encode (w : List Char) : digitOf (Utf8.encode w) = digitOf w := by
  rcases Utf8.encode_cases w with rfl | ⟨c, w, rfl, heq⟩ | ⟨c, w, b, bs, rfl, hc, heq, hb⟩
  · rfl
  · rw [heq]
    cases w with
    | nil => rfl
    | cons c' w =>
      obtain ⟨b, bs, hbytes⟩ := List.exists_cons_of_ne_nil (Utf8.encodeChar_ne_nil c')
      rw [Utf8.encode_cons, hbytes]
      rfl
  · rw [heq, digitOf_not_ascii hb, digitOf_not_ascii hc]

section

variable {past past' : Bool} {P Q : State → Prop}

/-- A turn of the loop that adds a part, for all that the loop does behind it. -/
structure Turn (P Q : State → Prop) (past past' : Bool) (part : SimplePart) : Prop where
  yields : ∀ {n : Nat} {parts : List SimplePart} {R : State → Prop},
    Yields Q (simpleCommandLoop n past') parts R →
      Yields P (simpleCommandLoop (n + 1) past) (part :: parts) R
  fails : ∀ {n : Nat}, Fails Q (simpleCommandLoop n past') →
    Fails P (simpleCommandLoop (n + 1) past)

theorem Turn.word {w : Word} (h : Yields P (parseSimpleCommandPart past) (some (.word w)) Q) :
    Turn P Q past true (.word w) where
  yields hrest := h.bind (hrest.bind (.pure _))
  fails hrest := h.fails hrest.bind

theorem Turn.redirection {r : Redirection}
    (h : Yields P (parseSimpleCommandPart past) (some (.redirection r)) Q) :
    Turn P Q past past (.redirection r) where
  yields hrest := h.bind (hrest.bind (.pure _))
  fails hrest := h.fails hrest.bind

end

theorem exists_head (toks : List Token) (e : Token) (rest : List Token) :
    ∃ next ts, toks ++ e :: rest = next :: ts :=
  List.exists_cons_of_ne_nil (List.append_ne_nil_of_right_ne_nil toks (List.cons_ne_nil e rest))

section

variable {items : List Item} {past : Bool} {toks rest : List Token} {e : Token} {w : List Char}
  {op : Operator} {target : List Char}

/-- The turn at a word that names no descriptor. -/
theorem turn_word (hw : (Item.word w).Readable)
    (hassign : past = true ∨ isAssignmentText (Utf8.encode w) = false)
    (hno : ∀ op target items', items = .redirection ⟨none, op, target⟩ :: items' →
      ¬ ((digitOf w).isSome ∧ op.both = false)) (he : e.kind ∈ endKinds)
    (htoks : List.Forall₂ (Spells src) toks ((Item.word w :: items).flatMap Item.lexemes)) :
    ∃ ts, List.Forall₂ (Spells src) ts (items.flatMap Item.lexemes) ∧
      Yields (Faces src depth (toks ++ e :: rest)) (parseSimpleCommandPart past)
        (some (.word (writtenWord (Utf8.encode w)))) (Faces src depth (ts ++ e :: rest)) := by
  obtain ⟨t, toks, rfl, ht, htoks⟩ := spells_cons htoks
  obtain ⟨next, ts, hnext⟩ := exists_head toks e rest
  have hkind := next_kind he htoks hnext
  have hfd : ((digitOf (t.text src)).isSome && fdOperators.contains next.kind) = false := by
    rw [ht.2, digitOf_encode, Bool.and_eq_false_iff]
    by_contra hboth
    rw [not_or, Bool.not_eq_false, Bool.not_eq_false] at hboth
    obtain ⟨op, target, items', heq, hop⟩ := hkind.2 hboth.2
    exact hno op target items' heq ⟨hboth.1, hop⟩
  have hword := hw.word_token ht
  have hturn := @faces_part_word src depth t next ts past hword.1 hkind.1 hfd
    (hassign.imp id fun h => by rw [ht.2]; exact h)
  refine ⟨toks, htoks, ?_⟩
  rw [hword.2] at hturn
  rw [List.cons_append, hnext]
  exact hturn

/-- The turn at a redirection without a number. -/
theorem turn_operator (hr : (Item.redirection ⟨none, op, target⟩).Readable)
    (htoks : List.Forall₂ (Spells src) toks
      ((Item.redirection ⟨none, op, target⟩ :: items).flatMap Item.lexemes)) :
    ∃ ts, List.Forall₂ (Spells src) ts (items.flatMap Item.lexemes) ∧
      Yields (Faces src depth (toks ++ e :: rest)) (parseSimpleCommandPart past)
        (some (.redirection (WrittenRedirection.value ⟨none, op, Utf8.encode target⟩)))
        (Faces src depth (ts ++ e :: rest)) := by
  obtain ⟨ops, t, ts, rfl, hops, ht, hts⟩ := spells_redirection htoks
  obtain ⟨next, ts', hnext⟩ := exists_head ts e rest
  have htarget := hr.word_token ht
  have hturn := @faces_part_operator src depth op ops ts' t next past hops htarget.1
  refine ⟨ts, hts, ?_⟩
  rw [htarget.2] at hturn
  rw [List.append_assoc, List.cons_append, hnext]
  exact hturn

/-- The turn at a digit and a redirection. -/
theorem turn_fd {d : Nat} (hr : (Item.redirection ⟨none, op, target⟩).Readable)
    (hop : op.both = false) (ht : isWord t.kind = true) (hd : digitOf (t.text src) = some d)
    (htoks : List.Forall₂ (Spells src) toks
      ((Item.redirection ⟨none, op, target⟩ :: items).flatMap Item.lexemes)) :
    ∃ ts, List.Forall₂ (Spells src) ts (items.flatMap Item.lexemes) ∧
      Yields (Faces src depth (t :: toks ++ e :: rest)) (parseSimpleCommandPart past)
        (some (.redirection (WrittenRedirection.value ⟨some d, op, Utf8.encode target⟩)))
        (Faces src depth (ts ++ e :: rest)) := by
  obtain ⟨ops, t', ts, rfl, hops, ht', hts⟩ := spells_redirection htoks
  obtain ⟨next, ts', hnext⟩ := exists_head ts e rest
  have htarget := hr.word_token ht'
  have hturn := @faces_part_fdOperator src depth op ops ts' t t' next past d ht hd hop hops
    htarget.1
  refine ⟨ts, hts, ?_⟩
  rw [htarget.2] at hturn
  rw [List.cons_append, List.append_assoc, List.cons_append, hnext]
  exact hturn

end

theorem toDigits_ne_bracket (n : Nat) :
    Nat.toDigits 10 n ≠ ['[', '['] ∧ Nat.toDigits 10 n ≠ [']', ']'] := by
  have hno : ∀ c, c.isDigit = false → c ∉ Nat.toDigits 10 n := by
    intro c hc hmem
    rw [Nat.isDigit_of_mem_toDigits (by decide) (by decide) hmem] at hc
    cases hc
  constructor
  · intro h
    exact hno '[' (by decide) (by rw [h]; exact .head _)
  · intro h
    exact hno ']' (by decide) (by rw [h]; exact .head _)

theorem isWord_toDigits (n : Nat) : isWord (wordKind (Nat.toDigits 10 n)) = true := by
  rcases wordKind_cases (Nat.toDigits 10 n) with ⟨h, -⟩ | ⟨h, -⟩ | ⟨-, h⟩
  · exact absurd h (toDigits_ne_bracket n).1
  · exact absurd h (toDigits_ne_bracket n).2
  · exact h

/-- The first word that cannot be read is that of a redirection. -/
inductive Stuck : List Item → Prop where
  | here {r : WrittenRedirection} {items : List Item} (h : ¬ (Item.redirection r).NoBracket) :
      Stuck (.redirection r :: items)
  | next {i : Item} {items : List Item} (hi : i.NoBracket) (h : Stuck items) : Stuck (i :: items)

/-- The token of a word that cannot be read. -/
theorem bracket_token (h : ¬ i.NoBracket) (ht : Spells src t (.word (Utf8.encode i.content))) :
    isWord t.kind = false ∧ t.kind ≠ .amp ∧ t.kind ≠ .lParen := by
  rw [ht.1]
  rcases wordKind_cases (Utf8.encode i.content) with ⟨-, hkind⟩ | ⟨-, hkind⟩ | ⟨hno, -⟩
  · rw [hkind]
    decide
  · rw [hkind]
    decide
  · refine absurd ⟨?_, ?_⟩ h
    · exact fun heq => hno.1 ((encode_eq_iff rfl).mpr heq)
    · exact fun heq => hno.2 ((encode_eq_iff rfl).mpr heq)

/-- The words of the items up to the first that cannot be read, if there is one. -/
def Heads : Bool → List Item → Prop
  | true, items => Stuck items
  | false, items => ∀ i ∈ items, i.NoBracket

theorem Heads.cons {stuck : Bool} {items : List Item} (h : Heads stuck (i :: items)) :
    i.NoBracket ∧ Heads stuck items ∨
      stuck = true ∧ ¬ i.NoBracket ∧ ∃ r, i = .redirection r := by
  cases stuck with
  | false => exact .inl ⟨h i (.head _), fun j hj => h j (.tail _ hj)⟩
  | true =>
    cases h with
    | here h => exact .inr ⟨rfl, h, _, rfl⟩
    | next hi h => exact .inl ⟨hi, h⟩

/-- What the loop has in front of it. -/
structure Ahead (src : List Char) (stuck past : Bool) (items : List Item) (toks : List Token) :
    Prop where
  plain : ∀ i ∈ items, IsPlain i.content ∧ i.Fits
  heads : Heads stuck items
  assign : past = true ∨ ∀ w ∈ itemWords items, isAssignmentText (Utf8.encode w) = false
  spells : List.Forall₂ (Spells src) toks (items.flatMap Item.lexemes)

section

variable {stuck past : Bool} {items : List Item} {toks rest : List Token} {e : Token}
  {op : Operator} {target : List Char}

/-- The turn at a digit and a redirection, whose word may be one that cannot be read. -/
theorem turn_digit {d : Nat} (hplain : IsPlain target) (hop : op.both = false)
    (ht : isWord t.kind = true) (hd : digitOf (t.text src) = some d) {fd : Option Nat}
    (hheads : Heads stuck (.redirection ⟨fd, op, target⟩ :: items))
    (htoks : List.Forall₂ (Spells src) toks
      ((Item.redirection ⟨none, op, target⟩ :: items).flatMap Item.lexemes)) :
    (∃ ts, Heads stuck items ∧ List.Forall₂ (Spells src) ts (items.flatMap Item.lexemes) ∧
      Turn (Faces src depth (t :: toks ++ e :: rest)) (Faces src depth (ts ++ e :: rest)) past past
        (.redirection (WrittenRedirection.value ⟨some d, op, Utf8.encode target⟩))) ∨
    stuck = true ∧
      Fails (Faces src depth (t :: toks ++ e :: rest)) (parseSimpleCommandPart past) := by
  rcases hheads.cons with ⟨hr, hheads⟩ | ⟨hstuck, hbad, -⟩
  · obtain ⟨ts, hts, hturn⟩ :=
      turn_fd ⟨hplain, hr, fun n hn => by cases hn⟩ hop ht hd htoks
    exact .inl ⟨ts, hheads, hts, .redirection hturn⟩
  · obtain ⟨ops, t', ts, rfl, hops, ht', hts⟩ := spells_redirection htoks
    have hbracket := bracket_token hbad ht'
    refine .inr ⟨hstuck, ?_⟩
    rw [List.cons_append, List.append_assoc, List.cons_append]
    exact fails_part_fdOperator ht (by rw [hd]; rfl) hop hops hbracket.1 hbracket.2.1 hbracket.2.2

/-- The turn at the first item, or at a digit and the redirection behind it. -/
theorem Ahead.turn (h : Ahead src stuck past (i :: items) toks) (he : e.kind ∈ endKinds) :
    (∃ j items' past' ts, absorb (i :: items) = j :: absorb items' ∧
      items'.length ≤ items.length ∧ Ahead src stuck past' items' ts ∧
      Turn (Faces src depth (toks ++ e :: rest)) (Faces src depth (ts ++ e :: rest)) past past'
        j.asBytes.part) ∨
    stuck = true ∧ Fails (Faces src depth (toks ++ e :: rest)) (parseSimpleCommandPart past) := by
  obtain ⟨hplain, hheads, hassign, htoks⟩ := h
  rw [List.forall_mem_cons] at hplain
  cases i with
  | word w =>
    have hword : (Item.word w).NoBracket ∧ Heads stuck items := by
      rcases hheads.cons with h | ⟨-, -, r, hr⟩
      · exact h
      · cases hr
    have hread : (Item.word w).Readable := ⟨hplain.1.1, hword.1, hplain.1.2⟩
    by_cases habsorb : ∃ op target items', items = .redirection ⟨none, op, target⟩ :: items' ∧
        (digitOf w).isSome ∧ op.both = false
    · obtain ⟨op, target, items, rfl, hsome, hop⟩ := habsorb
      rw [List.forall_mem_cons] at hplain
      obtain ⟨t, toks, rfl, ht, htoks⟩ := spells_cons htoks
      obtain ⟨d, hd⟩ := Option.isSome_iff_exists.mp hsome
      have hdigit : digitOf (t.text src) = some d := by
        rw [ht.2, digitOf_encode, hd]
      refine (turn_digit hplain.2.1.1 hop (hread.word_token ht).1 hdigit hword.2 htoks).imp_left ?_
      rintro ⟨ts, hheads, hts, hturn⟩
      refine ⟨.redirection ⟨some d, op, target⟩, items, past, ts, ?_, Nat.le_succ _,
        ⟨hplain.2.2, hheads, hassign.imp id fun h w hw => h w (.tail _ hw), hts⟩, hturn⟩
      rw [absorb, if_pos ⟨hsome, hop⟩, hd]
    · obtain ⟨ts, hts, hturn⟩ := turn_word hread (hassign.imp id fun h => h w (.head _))
        (fun op target items' heq hboth => habsorb ⟨op, target, items', heq, hboth⟩) he htoks
      refine .inl ⟨.word w, items, true, ts, ?_, Nat.le_refl _,
        ⟨hplain.2, hword.2, .inl rfl, hts⟩, .word hturn⟩
      rw [absorb.eq_def]
      split
      · next heq =>
        cases heq
        rw [if_neg fun h => habsorb ⟨_, _, _, rfl, h⟩]
      · next heq =>
        cases heq
        rfl
      · next heq => cases heq
  | redirection r =>
    have hwhole : absorb (.redirection r :: items) = .redirection r :: absorb items :=
      absorb.eq_2 _ _ fun _ _ _ _ h _ => by cases h
    rcases r with ⟨_ | d, op, target⟩
    · rcases hheads.cons with ⟨hr, hheads⟩ | ⟨hstuck, hbad, -⟩
      · obtain ⟨ts, hts, hturn⟩ := turn_operator ⟨hplain.1.1, hr, hplain.1.2⟩ htoks
        exact .inl ⟨_, items, past, ts, hwhole, Nat.le_refl _,
          ⟨hplain.2, hheads, hassign, hts⟩, .redirection hturn⟩
      · obtain ⟨ops, t, ts, rfl, hops, ht, hts⟩ := spells_redirection htoks
        have hbracket := bracket_token hbad ht
        refine .inr ⟨hstuck, ?_⟩
        rw [List.append_assoc, List.cons_append]
        exact fails_part_operator hops hbracket.1 hbracket.2.1 hbracket.2.2
    · have hfits := hplain.1.2 d rfl
      obtain ⟨t, toks, rfl, ht, htoks⟩ := spells_cons htoks
      have hdigit : digitOf (t.text src) = some d := by
        rw [ht.2, digitOf_toDigits hfits.1]
      have hword : isWord t.kind = true := by
        rw [ht.1, isWord_toDigits]
      refine (turn_digit hplain.1.1 hfits.2 hword hdigit hheads htoks).imp_left ?_
      rintro ⟨ts, hheads, hts, hturn⟩
      exact ⟨_, items, past, ts, hwhole, Nat.le_refl _, ⟨hplain.2, hheads, hassign, hts⟩, hturn⟩

/-- The loop of `parse_simple_command` over the tokens of items. -/
theorem Ahead.loop {n : Nat} (h : Ahead src stuck past items toks) (he : e.kind ∈ endKinds)
    (hn : items.length < n) :
    if stuck then Fails (Faces src depth (toks ++ e :: rest)) (simpleCommandLoop n past)
    else Yields (Faces src depth (toks ++ e :: rest)) (simpleCommandLoop n past)
      ((absorb items).map fun i => i.asBytes.part) (Faces src depth (e :: rest)) := by
  induction n generalizing past items toks with
  | zero => omega
  | succ n ih =>
    cases items with
    | nil =>
      obtain ⟨-, hheads, -, htoks⟩ := h
      cases htoks
      cases stuck with
      | false => exact (faces_part_end he).bind (.pure _)
      | true => cases hheads
    | cons i items =>
      rcases h.turn he with ⟨j, items', past', ts, habsorb, hlen, hahead, hturn⟩ | ⟨rfl, hfails⟩
      · have hrest := ih hahead (by rw [List.length_cons] at hn; omega)
        rw [habsorb]
        cases stuck with
        | false => exact hturn.yields hrest
        | true => exact hturn.fails hrest
      · exact hfails.bind

end

/-- The loop reads items whose words can be read. -/
theorem faces_loop {items : List Item} (hitems : ∀ i ∈ items, i.Readable) {past : Bool}
    (hassign : past = true ∨ ∀ w ∈ itemWords items, isAssignmentText (Utf8.encode w) = false)
    {toks : List Token} (htoks : List.Forall₂ (Spells src) toks (items.flatMap Item.lexemes))
    {e : Token} (he : e.kind ∈ endKinds) {rest : List Token} {n : Nat} (hn : items.length < n) :
    Yields (Faces src depth (toks ++ e :: rest)) (simpleCommandLoop n past)
      ((absorb items).map fun i => i.asBytes.part) (Faces src depth (e :: rest)) := by
  have hahead : Ahead src false past items toks :=
    ⟨fun i hi => ⟨(hitems i hi).plain, (hitems i hi).fits⟩, fun i hi => (hitems i hi).no_bracket,
      hassign, htoks⟩
  exact hahead.loop he hn

/-- A redirection whose word cannot be read is an error. -/
theorem fails_loop {items : List Item} (hitems : ∀ i ∈ items, IsPlain i.content ∧ i.Fits)
    (hstuck : Stuck items) {past : Bool}
    (hassign : past = true ∨ ∀ w ∈ itemWords items, isAssignmentText (Utf8.encode w) = false)
    {toks : List Token} (htoks : List.Forall₂ (Spells src) toks (items.flatMap Item.lexemes))
    {e : Token} (he : e.kind ∈ endKinds) {rest : List Token} {n : Nat} (hn : items.length < n) :
    Fails (Faces src depth (toks ++ e :: rest)) (simpleCommandLoop n past) := by
  have hahead : Ahead src true past items toks := ⟨hitems, hstuck, hassign, htoks⟩
  exact hahead.loop he hn

end Wasmsh.Parser

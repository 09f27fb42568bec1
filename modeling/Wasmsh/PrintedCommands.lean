import Wasmsh.CompoundAssignments

/-!
# Simple commands as they are printed

A simple command is written as a list of items, words that mean nothing to the shell and
redirections, with one blank between two of them.  `feeds_printItems` says which tokens the
lexer makes of such a line.  A blank does not show in the tokens.
-/

open Wasmsh.Lex StateExcept

namespace Wasmsh.Parser

open Hir

variable {rest : List Char} {t : List Char}

/-! ## 1. What is written -/

/-- The operators of redirections. -/
inductive Operator where
  | less
  | greater
  | greaterGreater
  | greaterPipe
  | lessLess
  | lessLessDash
  | lessLessLess
  | lessGreater
  | ampGreater
  | ampGreaterGreater
  | greaterAmp
  | lessAmp
  deriving DecidableEq, Repr

/-- The bytes of the tokens that operators are made of. -/
def operatorText : TokenKind → List Char
  | .less => ['<']
  | .greater => ['>']
  | .greaterGreater => ['>', '>']
  | .greaterPipe => ['>', '|']
  | .lessLess => ['<', '<']
  | .lessLessDash => ['<', '<', '-']
  | .lessLessLess => ['<', '<', '<']
  | .lessGreater => ['<', '>']
  | .ampGreater => ['&', '>']
  | .ampGreaterGreater => ['&', '>', '>']
  | .amp => ['&']
  | _ => []

namespace Operator

/-- The tokens of an operator. -/
def tokens : Operator → List TokenKind
  | less => [.less]
  | greater => [.greater]
  | greaterGreater => [.greaterGreater]
  | greaterPipe => [.greaterPipe]
  | lessLess => [.lessLess]
  | lessLessDash => [.lessLessDash]
  | lessLessLess => [.lessLessLess]
  | lessGreater => [.lessGreater]
  | ampGreater => [.ampGreater]
  | ampGreaterGreater => [.ampGreaterGreater]
  | greaterAmp => [.greater, .amp]
  | lessAmp => [.less, .amp]

def text (o : Operator) : List Char := o.tokens.flatMap operatorText

def meaning : Operator → RedirectionOp
  | less => .input
  | greater => .output
  | greaterGreater => .append
  | greaterPipe => .clobber
  | lessLess => .hereDoc
  | lessLessDash => .hereDocStrip
  | lessLessLess => .hereString
  | lessGreater => .readWrite
  | ampGreater => .output
  | ampGreaterGreater => .appendBoth
  | greaterAmp => .dupOutput
  | lessAmp => .dupInput

/-- The operators for both output streams. -/
def both : Operator → Bool
  | ampGreater => true
  | ampGreaterGreater => true
  | _ => false

end Operator

/-- `[n]op target`. -/
structure WrittenRedirection where
  fd : Option Nat
  op : Operator
  target : List Char
  deriving DecidableEq, Repr

/-- What a simple command is a list of. -/
inductive Item where
  | word (w : List Char)
  | redirection (r : WrittenRedirection)
  deriving DecidableEq, Repr

namespace Item

def text : Item → List Char
  | word w => w
  | redirection r => (r.fd.elim [] (Nat.toDigits 10)) ++ (r.op.text ++ ' ' :: r.target)

/-- The word of an item. -/
def content : Item → List Char
  | word w => w
  | redirection r => r.target

end Item

/-- Items with one blank between two of them. -/
def printItems (items : List Item) : List Char := [' '].intercalate (items.map Item.text)

def writtenWord (w : List Char) : Word := ⟨[.literal w]⟩

/-- The redirection that is written; the largest descriptor stands for both streams. -/
def WrittenRedirection.value (r : WrittenRedirection) : Redirection :=
  ⟨r.fd.orElse fun _ => if r.op.both then some (2 ^ 32 - 1) else none, r.op.meaning,
    writtenWord r.target, none⟩

def itemWords (items : List Item) : List (List Char) :=
  items.filterMap fun
    | .word w => some w
    | .redirection _ => none

def itemRedirections (items : List Item) : List WrittenRedirection :=
  items.filterMap fun
    | .word _ => none
    | .redirection r => some r

/-- The simple command with these items. -/
def writtenCommand (items : List Item) : Command :=
  let redirections := (itemRedirections items).map WrittenRedirection.value
  if (itemWords items).isEmpty then .redirectOnly redirections
  else .exec ⟨(itemWords items).map writtenWord, [], redirections⟩

/-- A text that means nothing to the shell. -/
structure IsPlain (t : List Char) : Prop where
  ne_nil : t ≠ []
  plain : ∀ c ∈ t, isPlainByte c = true
  no_comment : t.head? ≠ some '#'

theorem isPlain_iff :
    IsPlain t ↔ t ≠ [] ∧ t.all isPlainByte = true ∧ t.head? ≠ some '#' := by
  rw [List.all_eq_true]
  exact ⟨fun ⟨h₁, h₂, h₃⟩ => ⟨h₁, h₂, h₃⟩, fun ⟨h₁, h₂, h₃⟩ => ⟨h₁, h₂, h₃⟩⟩

instance (t : List Char) : Decidable (IsPlain t) := decidable_of_iff' _ isPlain_iff

/-- Items of a simple command: no word is an assignment, and none that stands first is
    reserved. -/
structure IsWritten (items : List Item) : Prop where
  plain : ∀ i ∈ items, IsPlain i.content
  no_assignment : ∀ w ∈ itemWords items, isAssignmentText (Utf8.encode w) = false
  no_reserved : ∀ w, items.head? = some (.word w) → isReservedWord (Utf8.encode w) = false

/-! ## 2. Bytes and tokens -/

/-- The bytes of a text that means nothing to the shell. -/
structure IsBare (t : List Char) : Prop where
  ne_nil : t ≠ []
  plain : ∀ b ∈ t, isPlainByte b = true
  no_comment : t.head? ≠ some '#'

theorem IsPlain.bytes (h : IsPlain t) : IsBare (Utf8.encode t) where
  ne_nil := by
    cases t with
    | nil => exact absurd rfl h.ne_nil
    | cons c t =>
      rw [Utf8.encode_cons]
      exact List.append_ne_nil_of_left_ne_nil (Utf8.encodeChar_ne_nil c) _
  plain := by
    intro b hb
    by_cases hascii : b.toNat < 0x80
    · exact h.plain b (Utf8.mem_of_mem_encode hascii hb)
    · exact isPlainByte_of_not_ascii (Nat.le_of_not_lt hascii)
  no_comment := fun hhead => h.no_comment ((Utf8.head?_encode (by decide) t).mp hhead)

theorem IsBare.wellFormed (h : IsBare t) :
    ∀ p ∈ plainPieces t, p.WellFormed := by
  intro p hp
  rcases List.mem_map.mp hp with ⟨c, hc, rfl⟩
  exact h.plain c hc

/-- The word parser leaves such a text as it is. -/
theorem wordOf_bare (h : IsBare t) : wordOf t = writtenWord t := by
  have hparts := parseWordParts_bytesOf h.wellFormed
  rw [bytesOf_plainPieces, partsFrom_plainPieces, List.nil_append, WordParser.flush,
    if_neg h.ne_nil] at hparts
  rw [wordOf, hparts]
  rfl

/-- The kind of the token of such a text. -/
def wordKind (t : List Char) : TokenKind :=
  (plainWordTokenKind t true).getD (.word (isReservedWord t))

/-- What the parser reads: words and operators. -/
inductive Lexeme where
  | word (t : List Char)
  | op (kind : TokenKind)

/-- The token is that of the lexeme. -/
def Spells (src : List Char) (t : Token) : Lexeme → Prop
  | .word text => t.kind = wordKind text ∧ t.text src = text
  | .op kind => t.kind = kind

variable {src : List Char} {depth : Nat}

theorem nextToken_bare {pos : Nat} {t blank rest : List Char} (ht : IsBare t)
    (hblank : blank = [] ∨ blank = [' ']) (hsrc : src.drop pos = blank ++ (t ++ rest))
    (hrest : EndsLine rest) : ∃ l, nextToken (lexerAt src pos) = .ok l ∧
      l.lexer = lexerAt src (pos + blank.length + t.length) ∧ Spells src l.token (.word t) := by
  have hends : EndsWord (plainPieces t) rest := by
    constructor
    · exact fun b hb => (hrest b hb).1
    · exact fun hhead => absurd rfl (hrest '(' hhead).2
  have hlen : (plainPieces t).length < (t ++ rest).length + 1 := by
    simp only [plainPieces, List.length_map, List.length_append]
    omega
  rcases readWordLoop_bytesOf 0 _ ht.wellFormed hends ((t ++ rest).length + 1)
    (pos + blank.length) hlen with ⟨marks, hloop⟩
  rw [bytesOf_plainPieces] at hloop
  have hslice : Scanning.Cursor.slice ⟨pos + blank.length, t ++ rest⟩
      ⟨pos + blank.length + t.length, rest⟩ = t := by
    simp [Scanning.Cursor.slice]
  have hno : ∀ c, isPlainByte c = false → t.contains c = false := by
    intro c hc
    rw [List.contains_eq_mem, decide_eq_false_iff_not]
    intro hmem
    rw [ht.plain c hmem] at hc
    cases hc
  obtain ⟨b, r, rfl⟩ := List.exists_cons_of_ne_nil ht.ne_nil
  have hb := ht.plain b (.head _)
  have hbreak : isWordBreak b = false := by
    simp only [isPlainByte, Bool.and_eq_true, Bool.not_eq_true'] at hb
    exact hb.1
  have hcomment : b ≠ '#' := by
    rintro rfl
    exact ht.no_comment rfl
  have hstart := nextToken_readWord (r := r ++ rest) hbreak hcomment
    (fun h => absurd h (ne_of_isPlainByte hb (by decide))) hblank hsrc
  have hdepth : (lexerAt src pos).substDepth = 0 := rfl
  rw [← List.cons_append, readWord, hdepth, hloop] at hstart
  refine ⟨_, hstart, rfl, ?_, ?_⟩
  · simp only [makeWordToken, hslice, hno '\'' (by decide), hno '"' (by decide),
      hno '\\' (by decide), hno '$' (by decide)]
    rfl
  · have hdrop : src.drop (pos + blank.length) = (b :: r) ++ rest := by
      rw [← List.drop_drop, hsrc, List.drop_left]
    simp only [makeWordToken, Token.text, spanFrom, hdrop, Nat.add_sub_cancel_left,
      List.take_left]

/-- The tokens that operators are made of. -/
def operatorKinds : List TokenKind :=
  [.less, .greater, .greaterGreater, .greaterPipe, .lessLess, .lessLessDash, .lessLessLess,
    .lessGreater, .ampGreater, .ampGreaterGreater, .amp]

theorem nextToken_operator {pos : Nat} {kind : TokenKind} {blank rest : List Char}
    (hkind : kind ∈ operatorKinds) (hblank : blank = [] ∨ blank = [' '])
    (hsrc : src.drop pos = blank ++ (operatorText kind ++ rest))
    (hrest : rest.head? = some ' ' ∨
      rest.head? = some '&' ∧ (kind = .less ∨ kind = .greater)) :
    ∃ l, nextToken (lexerAt src pos) = .ok l ∧
      l.lexer = lexerAt src (pos + blank.length + (operatorText kind).length) ∧
      Spells src l.token (.op kind) := by
  simp only [operatorKinds, List.mem_cons, List.not_mem_nil, or_false] at hkind
  have hskip : skipBlanks (lexerAt src pos).cursor =
      ⟨pos + blank.length, operatorText kind ++ rest⟩ := by
    have hstart : ∀ pos, skipBlanksLoop pos (operatorText kind ++ rest) =
        ⟨pos, operatorText kind ++ rest⟩ := by
      intro pos
      rcases hkind with rfl | rfl | rfl | rfl | rfl | rfl | rfl | rfl | rfl | rfl | rfl <;> rfl
    simp only [skipBlanks, Lexer.cursor, lexerAt, hsrc]
    rcases hblank with rfl | rfl
    · exact hstart pos
    · exact hstart (pos + 1)
  have hnext : nextToken (lexerAt src pos) = nextNormalToken 2 (lexerAt src pos) := rfl
  rw [hnext, nextNormalToken, hskip]
  obtain ⟨b, r, rfl⟩ : ∃ b r, rest = b :: r := by
    cases rest with
    | nil => simp at hrest
    | cons b r => exact ⟨b, r, rfl⟩
  simp only [List.head?_cons, Option.some.injEq] at hrest
  rcases hrest with rfl | ⟨rfl, rfl | rfl⟩
  · rcases hkind with rfl | rfl | rfl | rfl | rfl | rfl | rfl | rfl | rfl | rfl | rfl <;>
      exact ⟨_, rfl, rfl, rfl⟩
  · exact ⟨_, rfl, rfl, rfl⟩
  · exact ⟨_, rfl, rfl, rfl⟩

namespace Lexeme

def bytes : Lexeme → List Char
  | word t => t
  | op kind => operatorText kind

def WellFormed : Lexeme → Prop
  | word t => IsBare t
  | op kind => kind ∈ operatorKinds

/-- What may follow the bytes of a lexeme. -/
def Ends : Lexeme → List Char → Prop
  | word _, rest => EndsLine rest
  | op kind, rest =>
    rest.head? = some ' ' ∨ rest.head? = some '&' ∧ (kind = .less ∨ kind = .greater)

end Lexeme

/-- A lexeme, and whether a blank stands before it. -/
abbrev Spaced := Bool × Lexeme

def blankOf (gap : Bool) : List Char := if gap then [' '] else []

def spacedBytes (ls : List Spaced) : List Char := ls.flatMap fun l => blankOf l.1 ++ l.2.bytes

/-- Every lexeme ends where the next one starts, and the last one before `rest`. -/
def AllEnd : List Spaced → List Char → Prop
  | [], _ => True
  | l :: ls, rest => l.2.Ends (spacedBytes ls ++ rest) ∧ AllEnd ls rest

theorem spacedBytes_append (ls ls' : List Spaced) :
    spacedBytes (ls ++ ls') = spacedBytes ls ++ spacedBytes ls' := List.flatMap_append

theorem allEnd_append (ls ls' : List Spaced) (rest : List Char) :
    AllEnd (ls ++ ls') rest ↔ AllEnd ls (spacedBytes ls' ++ rest) ∧ AllEnd ls' rest := by
  induction ls with
  | nil => simp [AllEnd]
  | cons l ls ih =>
    simp only [List.cons_append, AllEnd, ih, spacedBytes_append, List.append_assoc, and_assoc]

theorem nextToken_lexeme {pos : Nat} {l : Spaced} (hl : l.2.WellFormed)
    (hends : l.2.Ends rest) (hsrc : src.drop pos = blankOf l.1 ++ (l.2.bytes ++ rest)) :
    ∃ out, nextToken (lexerAt src pos) = .ok out ∧
      out.lexer = lexerAt src (pos + (blankOf l.1).length + l.2.bytes.length) ∧
      Spells src out.token l.2 := by
  have hblank : blankOf l.1 = [] ∨ blankOf l.1 = [' '] := by
    rcases l.1 with _ | _
    · exact .inl rfl
    · exact .inr rfl
  rcases l with ⟨gap, t | kind⟩
  · exact nextToken_bare hl hblank hsrc hends
  · exact nextToken_operator hl hblank hsrc hends

/-- The lexer reads lexemes one by one. -/
theorem feeds_spaced (ls : List Spaced) (hls : ∀ l ∈ ls, l.2.WellFormed)
    (hends : AllEnd ls rest) {pos : Nat} (hsrc : src.drop pos = spacedBytes ls ++ rest)
    {ts : List Token} (hts : Feeds (lexerAt src (pos + (spacedBytes ls).length)) ts) :
    ∃ toks, Feeds (lexerAt src pos) (toks ++ ts) ∧
      List.Forall₂ (Spells src) toks (ls.map Prod.snd) := by
  induction ls generalizing pos with
  | nil => exact ⟨[], hts, .nil⟩
  | cons l ls ih =>
    have hbytes : spacedBytes (l :: ls) = blankOf l.1 ++ (l.2.bytes ++ spacedBytes ls) := by
      rw [spacedBytes, List.flatMap_cons, List.append_assoc]
      rfl
    rw [hbytes, List.append_assoc, List.append_assoc] at hsrc
    obtain ⟨out, hnext, hlexer, hspells⟩ := nextToken_lexeme (hls l (.head _)) hends.1 hsrc
    have hdrop : src.drop (pos + (blankOf l.1).length + l.2.bytes.length) =
        spacedBytes ls ++ rest := by
      rw [← List.drop_drop, ← List.drop_drop, hsrc, List.drop_left, List.drop_left]
    have hlen : pos + (spacedBytes (l :: ls)).length =
        pos + (blankOf l.1).length + l.2.bytes.length + (spacedBytes ls).length := by
      rw [hbytes, List.length_append, List.length_append]
      omega
    rw [hlen] at hts
    obtain ⟨toks, hfeeds, hall⟩ := ih (fun l' hl' => hls l' (.tail _ hl')) hends.2 hdrop hts
    refine ⟨out.token :: toks, ?_, .cons hspells hall⟩
    rw [← hlexer] at hfeeds
    exact .cons hnext hfeeds

/-- The tokens of an operator stand together. -/
def Operator.spaced (gap : Bool) (o : Operator) : List Spaced :=
  (o.tokens.take 1).map (gap, .op ·) ++ (o.tokens.drop 1).map (false, .op ·)

theorem Operator.spacedBytes_spaced (gap : Bool) (o : Operator) :
    spacedBytes (o.spaced gap) = blankOf gap ++ Utf8.encode o.text := by
  cases o <;> cases gap <;> rfl

theorem Operator.map_snd_spaced (gap : Bool) (o : Operator) :
    (o.spaced gap).map Prod.snd = o.tokens.map .op := by
  cases o <;> rfl

namespace Item

/-- The lexemes of an item. -/
def lexemes : Item → List Lexeme
  | word w => [.word (Utf8.encode w)]
  | redirection r => (r.fd.elim [] fun n => [.word (Nat.toDigits 10 n)]) ++
    (r.op.tokens.map .op ++ [.word (Utf8.encode r.target)])

/-- The same, with the blanks between them and the one before them, if there is one. -/
def spaced (gap : Bool) : Item → List Spaced
  | word w => [(gap, .word (Utf8.encode w))]
  | redirection r => (r.fd.elim [] fun n => [(gap, .word (Nat.toDigits 10 n))]) ++
    (r.op.spaced (gap && r.fd.isNone) ++ [(true, .word (Utf8.encode r.target))])

theorem map_snd_spaced (gap : Bool) (i : Item) : (i.spaced gap).map Prod.snd = i.lexemes := by
  cases i with
  | word w => rfl
  | redirection r =>
    rcases r with ⟨_ | n, op, target⟩ <;>
      simp [spaced, lexemes, Operator.map_snd_spaced]

end Item

theorem encode_toDigits (n : Nat) : Utf8.encode (Nat.toDigits 10 n) = Nat.toDigits 10 n := by
  apply Utf8.encode_of_ascii
  intro c hc
  have hdigit := Nat.isDigit_of_mem_toDigits (by decide) (by decide) hc
  simp only [Char.isDigit, Bool.and_eq_true, decide_eq_true_eq] at hdigit
  have hle : c.toNat ≤ 57 := hdigit.2
  omega

theorem isBare_toDigits (n : Nat) : IsBare (Nat.toDigits 10 n) := by
  have hdigit : ∀ b ∈ Nat.toDigits 10 n, b.isDigit = true := fun b hb =>
    Nat.isDigit_of_mem_toDigits (by decide) (by decide) hb
  refine ⟨Nat.toDigits_ne_nil, ?_, ?_⟩
  · intro b hb
    have hne : ∀ c : Char, c.isDigit = false → (b == c) = false := by
      intro c hc
      rw [beq_eq_false_iff_ne]
      rintro rfl
      rw [hdigit b hb] at hc
      cases hc
    simp only [isPlainByte, isWordBreak, List.contains_cons, List.contains_nil, Bool.or_false]
    simp [hne]
  · intro hhead
    have hmem := List.mem_of_head? hhead
    exact absurd (hdigit _ hmem) (by decide)

theorem spacedBytes_spaced (gap : Bool) (i : Item) :
    spacedBytes (i.spaced gap) = blankOf gap ++ Utf8.encode i.text := by
  have hword : ∀ (gap : Bool) (t : List Char),
      spacedBytes [(gap, .word t)] = blankOf gap ++ t := by
    intro gap t
    simp [spacedBytes, Lexeme.bytes]
  have hblank : ∀ t, Utf8.encode (' ' :: t) = blankOf true ++ Utf8.encode t := fun t => rfl
  have hnone : blankOf false = [] := rfl
  cases i with
  | word w => exact hword gap _
  | redirection r =>
    rcases r with ⟨_ | n, op, target⟩
    · simp only [Item.spaced, Item.text, Option.elim_none, Option.isNone_none, Bool.and_true,
        List.nil_append, spacedBytes_append, Operator.spacedBytes_spaced, hword,
        Utf8.encode_append, hblank, List.append_assoc]
    · simp only [Item.spaced, Item.text, Option.elim_some, Option.isNone_some, Bool.and_false,
        spacedBytes_append, Operator.spacedBytes_spaced, hword, hnone, List.nil_append,
        Utf8.encode_append, encode_toDigits, hblank, List.append_assoc]

theorem Operator.tokens_operatorKinds (o : Operator) :
    ∀ kind ∈ o.tokens, kind ∈ operatorKinds := by
  cases o <;> decide

/-- The operator ends at its target, or at what follows it. -/
theorem Operator.allEnd_spaced (gap : Bool) (o : Operator)
    (hrest : rest.head? = some ' ') : AllEnd (o.spaced gap) rest := by
  cases o <;> simp [Operator.spaced, Operator.tokens, AllEnd, Lexeme.Ends, spacedBytes, blankOf,
    Lexeme.bytes, operatorText, hrest]

theorem endsLine_of_blank (h : rest = [] ∨ rest.head? = some ' ') :
    EndsLine rest := by
  intro b hb
  rcases h with rfl | h
  · cases hb
  · rw [h] at hb
    cases hb
    decide

theorem Item.allEnd_spaced (gap : Bool) (i : Item)
    (hrest : rest = [] ∨ rest.head? = some ' ') : AllEnd (i.spaced gap) rest := by
  have hend := endsLine_of_blank hrest
  cases i with
  | word w => exact ⟨hend, trivial⟩
  | redirection r =>
    rcases r with ⟨fd, op, target⟩
    have htail : ∀ gap, AllEnd (op.spaced gap ++ [(true, .word (Utf8.encode target))]) rest := by
      intro gap
      rw [allEnd_append]
      exact ⟨op.allEnd_spaced _ rfl, hend, trivial⟩
    cases fd with
    | none => exact htail _
    | some n =>
      have hsplit : (Item.redirection ⟨some n, op, target⟩).spaced gap =
          (gap, .word (Nat.toDigits 10 n)) ::
            (op.spaced false ++ [(true, .word (Utf8.encode target))]) := by
        simp [Item.spaced]
      have hnext : EndsLine (spacedBytes (op.spaced false ++
          [(true, .word (Utf8.encode target))]) ++ rest) := by
        intro b hb
        cases op <;> cases hb <;> decide
      rw [hsplit]
      exact ⟨hnext, htail false⟩

theorem Item.wellFormed_spaced {i : Item} (hi : IsPlain i.content) (gap : Bool) :
    ∀ l ∈ i.spaced gap, l.2.WellFormed := by
  cases i with
  | word w =>
    intro l hl
    rw [List.mem_singleton.mp hl]
    exact hi.bytes
  | redirection r =>
    rcases r with ⟨fd, op, target⟩
    have hop : ∀ gap, ∀ l ∈ op.spaced gap, l.2.WellFormed := by
      intro gap l hl
      have hmem : l.2 ∈ (op.spaced gap).map Prod.snd := List.mem_map_of_mem hl
      rw [Operator.map_snd_spaced] at hmem
      obtain ⟨kind, hkind, heq⟩ := List.mem_map.mp hmem
      rw [← heq]
      exact op.tokens_operatorKinds kind hkind
    intro l hl
    rcases List.mem_append.mp hl with hl | hl
    · cases fd with
      | none => cases hl
      | some n =>
        rw [List.mem_singleton.mp hl]
        exact isBare_toDigits n
    · rcases List.mem_append.mp hl with hl | hl
      · exact hop _ l hl
      · rw [List.mem_singleton.mp hl]
        exact hi.bytes

theorem printItems_cons (i : Item) (items : List Item) :
    printItems (i :: items) = i.text ++ items.flatMap fun j => ' ' :: j.text := by
  induction items generalizing i with
  | nil => simp [printItems, List.intercalate]
  | cons j items ih =>
    have hnext : printItems (i :: j :: items) = i.text ++ ' ' :: printItems (j :: items) := by
      simp [printItems, List.intercalate]
    rw [hnext, ih, List.flatMap_cons, List.cons_append]

/-- The lexemes of a line. -/
def lineSpaced : List Item → List Spaced
  | [] => []
  | i :: items => i.spaced false ++ items.flatMap (Item.spaced true)

theorem spacedBytes_flatMap (items : List Item) : spacedBytes (items.flatMap (Item.spaced true)) =
    Utf8.encode (items.flatMap fun j => ' ' :: j.text) := by
  induction items with
  | nil => rfl
  | cons i items ih =>
    have hblank : Utf8.encode (' ' :: i.text) = blankOf true ++ Utf8.encode i.text := rfl
    rw [List.flatMap_cons, List.flatMap_cons, spacedBytes_append, spacedBytes_spaced, ih,
      Utf8.encode_append, hblank]

theorem spacedBytes_lineSpaced (items : List Item) :
    spacedBytes (lineSpaced items) = Utf8.encode (printItems items) := by
  cases items with
  | nil => rfl
  | cons i items =>
    rw [lineSpaced, printItems_cons, spacedBytes_append, spacedBytes_spaced, spacedBytes_flatMap,
      Utf8.encode_append]
    rfl

theorem map_snd_lineSpaced (items : List Item) :
    (lineSpaced items).map Prod.snd = items.flatMap Item.lexemes := by
  cases items with
  | nil => rfl
  | cons i items =>
    simp only [lineSpaced, List.map_append, List.map_flatMap, Item.map_snd_spaced,
      List.flatMap_cons]

theorem allEnd_flatMap (items : List Item) : AllEnd (items.flatMap (Item.spaced true)) [] ∧
    (spacedBytes (items.flatMap (Item.spaced true)) = [] ∨
      (spacedBytes (items.flatMap (Item.spaced true))).head? = some ' ') := by
  induction items with
  | nil => exact ⟨trivial, .inl rfl⟩
  | cons i items ih =>
    rw [List.flatMap_cons, spacedBytes_append, spacedBytes_spaced]
    refine ⟨(allEnd_append _ _ _).mpr ⟨i.allEnd_spaced true ?_, ih.1⟩, .inr rfl⟩
    rw [List.append_nil]
    exact ih.2

/-- The tokens of a printed line. -/
theorem feeds_printItems {items : List Item} (hitems : ∀ i ∈ items, IsPlain i.content)
    (hsrc : src = Utf8.encode (printItems items)) :
    ∃ toks stop, Feeds (lexerAt src 0) (toks ++ [⟨.eof, stop⟩]) ∧
      List.Forall₂ (Spells src) toks (items.flatMap Item.lexemes) := by
  have hwell : ∀ l ∈ lineSpaced items, l.2.WellFormed := by
    cases items with
    | nil => simp [lineSpaced]
    | cons i items =>
      intro l hl
      rcases List.mem_append.mp hl with hl | hl
      · exact Item.wellFormed_spaced (hitems i (.head _)) false l hl
      · obtain ⟨j, hj, hl⟩ := List.mem_flatMap.mp hl
        exact Item.wellFormed_spaced (hitems j (.tail _ hj)) true l hl
  have hends : AllEnd (lineSpaced items) [] := by
    cases items with
    | nil => trivial
    | cons i items =>
      have htail := allEnd_flatMap items
      refine (allEnd_append _ _ _).mpr ⟨i.allEnd_spaced false ?_, htail.1⟩
      rw [List.append_nil]
      exact htail.2
  have hbytes : src = spacedBytes (lineSpaced items) := by
    rw [hsrc, spacedBytes_lineSpaced]
  have hstop : src.drop (0 + (spacedBytes (lineSpaced items)).length) = [] := by
    rw [← hbytes, Nat.zero_add, List.drop_length]
  have hline : src.drop 0 = spacedBytes (lineSpaced items) ++ [] := by
    rw [List.append_nil]
    exact hbytes
  obtain ⟨toks, hfeeds, hspells⟩ :=
    feeds_spaced (lineSpaced items) hwell hends hline (feeds_eof hstop)
  rw [map_snd_lineSpaced] at hspells
  exact ⟨toks, _, hfeeds, hspells⟩

end Wasmsh.Parser

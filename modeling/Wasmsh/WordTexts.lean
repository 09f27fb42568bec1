import Wasmsh.ArrayLiterals
import Wasmsh.RegionBodies

/-!
# The literal text of a word

A word is written as segments: characters, escapes, quoted texts and references.  What its
literal text is meant to be, next to the literal parts that `parse_word_parts` makes of its
bytes: the loops push a character byte by byte.
-/

namespace Wasmsh.WordTexts

open Scanning WordParser

variable {qs : List QuotedItem} {c : Char} {r : Reference}

/-! ## 1. Words -/

/-- A literal character, and whether it is copied from the source. -/
abbrev Tagged := List (Char × Bool)

/-- A reference; its inside is opaque here. -/
inductive Reference where
  | name (n : List Char)
  | special (c : Char)
  | braces (v : List Char)
  | command (v : List Char)
  | arithmetic (v : List Char)
  | backticks (v : List Char)
  deriving DecidableEq, Repr

/-- A piece of a double-quoted text. -/
inductive QuotedItem where
  | char (c : Char)
  /-- `\c` that stands for `c`. -/
  | escaped (c : Char)
  /-- `\c` that stands for itself. -/
  | backslash (c : Char)
  | continuation
  | dollar
  | reference (r : Reference)
  deriving DecidableEq, Repr

/-- A piece of `$'...'`. -/
inductive AnsiItem where
  | char (c : Char)
  | escape (c v : Char)
  | hex (digits : List Char)
  | octal (digits : List Char)
  /-- `\c` that stands for itself. -/
  | backslash (c : Char)
  deriving DecidableEq, Repr

inductive Segment where
  | char (c : Char)
  | escaped (c : Char)
  | continuation
  /-- A backslash at the end of the word. -/
  | backslash
  | dollar
  | single (t : List Char)
  | double (qs : List QuotedItem)
  | localized (qs : List QuotedItem)
  | ansi (es : List AnsiItem)
  | reference (r : Reference)
  | process (input : Bool) (v : List Char)
  deriving DecidableEq, Repr

namespace Reference

def source : Reference → List Char
  | name n => '$' :: n
  | special c => ['$', c]
  | braces v => '$' :: '{' :: (v ++ ['}'])
  | command v => '$' :: '(' :: (v ++ [')'])
  | arithmetic v => '$' :: '(' :: '(' :: (v ++ [')', ')'])
  | backticks v => '`' :: (v ++ ['`'])

/-- The reference ends where its source ends, before `rest`. -/
def WellFormed (rest : List Char) : Reference → Prop
  | name n => n.head?.any isNameStart ∧ n.all isNameByte ∧ rest.head?.all fun c => !isNameByte c
  | special c => isSpecialParam c
  | braces v => braceBalanced (Utf8.encode v)
  | command v => commandBalanced (Utf8.encode v) ∧ v.head? ≠ some '('
  | arithmetic v => arithBalanced (Utf8.encode v)
  | backticks v => backtickBody (Utf8.encode v)

end Reference

/-- A `$` before these characters is a `$`. -/
def LoneDollar (rest : List Char) : Prop :=
  rest.head?.all fun c => !(['(', '{'].contains c || isNameStart c || isSpecialParam c)

namespace QuotedItem

def source : QuotedItem → List Char
  | char c => [c]
  | escaped c => ['\\', c]
  | backslash c => ['\\', c]
  | continuation => ['\\', '\n']
  | dollar => ['$']
  | reference r => r.source

/-- The literal text of a piece. -/
def text : QuotedItem → Tagged
  | char c => [(c, true)]
  | escaped c => [(c, true)]
  | backslash c => [('\\', true), (c, true)]
  | continuation => []
  | dollar => [('$', true)]
  | reference _ => []

def WellFormed (rest : List Char) : QuotedItem → Prop
  | char c => c ∉ ['"', '\\', '$', '`']
  | escaped c => c ∈ ['$', '`', '"', '\\']
  | backslash c => c ∉ ['$', '`', '"', '\\', '\n']
  | continuation => True
  | dollar => LoneDollar rest
  | reference r => r.WellFormed rest

end QuotedItem

/-- What the simple escapes of `$'...'` stand for. -/
def simpleEscapes : List (Char × Char) :=
  [('n', '\n'), ('t', '\t'), ('r', '\r'), ('a', '\x07'), ('b', '\x08'), ('e', '\x1b'),
    ('E', '\x1b'), ('f', '\x0c'), ('v', '\x0b'), ('\\', '\\'), ('\'', '\''), ('"', '"')]

def isOctalDigit (c : Char) : Bool := decide ('0' ≤ c ∧ c ≤ '7')

/-- The byte that digits stand for. -/
def byteOf (radix : Nat) (digit : Char → Nat) (digits : List Char) : Char :=
  Char.ofNat (digits.foldl (fun n c => (n * radix + digit c) % 256) 0)

namespace AnsiItem

def source : AnsiItem → List Char
  | char c => [c]
  | escape c _ => ['\\', c]
  | hex digits => '\\' :: 'x' :: digits
  | octal digits => '\\' :: digits
  | backslash c => ['\\', c]

def text : AnsiItem → Tagged
  | char c => [(c, true)]
  | escape _ v => [(v, false)]
  | hex digits => [(byteOf 16 (fun c => (hexDigit c).getD 0) digits, false)]
  | octal digits => [(byteOf 8 (fun c => c.toNat - '0'.toNat) digits, false)]
  | backslash c => [('\\', true), (c, true)]

/-- Numeric escapes take in as many digits as they can. -/
def WellFormed (rest : List Char) : AnsiItem → Prop
  | char c => c ∉ ['\'', '\\']
  | escape c v => (c, v) ∈ simpleEscapes
  | hex digits => digits.all (fun c => (hexDigit c).isSome) ∧ (digits.length = 2 ∨
      digits.length < 2 ∧ rest.head?.all fun c => (hexDigit c).isNone)
  | octal digits => digits ≠ [] ∧ digits.all isOctalDigit ∧ (digits.length = 3 ∨
      digits.length < 3 ∧ rest.head?.all fun c => !isOctalDigit c)
  | backslash c => c ∉ simpleEscapes.map Prod.fst ∧ c ≠ 'x' ∧ isOctalDigit c = false

end AnsiItem

/-- The source of a list of pieces. -/
def quotedSource (qs : List QuotedItem) : List Char := qs.flatMap QuotedItem.source

def ansiSource (es : List AnsiItem) : List Char := es.flatMap AnsiItem.source

/-- Each piece is read as it is, before the pieces that follow and the closing quote. -/
def QuotedWellFormed : List QuotedItem → Prop
  | [] => True
  | q :: qs => q.WellFormed (quotedSource qs ++ ['"']) ∧ QuotedWellFormed qs

def AnsiWellFormed : List AnsiItem → Prop
  | [] => True
  | e :: es => e.WellFormed (ansiSource es ++ ['\'']) ∧ AnsiWellFormed es

namespace Segment

def source : Segment → List Char
  | char c => [c]
  | escaped c => ['\\', c]
  | continuation => ['\\', '\n']
  | backslash => ['\\']
  | dollar => ['$']
  | single t => '\'' :: (t ++ ['\''])
  | double qs => '"' :: (quotedSource qs ++ ['"'])
  | localized qs => '$' :: '"' :: (quotedSource qs ++ ['"'])
  | ansi es => '$' :: '\'' :: (ansiSource es ++ ['\''])
  | reference r => r.source
  | process input v => (if input then '<' else '>') :: '(' :: (v ++ [')'])

/-- The literal text of a segment: unquoted, double-quoted or of `$'...'`. -/
def text : Segment → Tagged
  | char c => [(c, true)]
  | escaped c => [(c, true)]
  | dollar => [('$', true)]
  | double qs => qs.flatMap QuotedItem.text
  | localized qs => qs.flatMap QuotedItem.text
  | ansi es => es.flatMap AnsiItem.text
  | _ => []

def WellFormed (rest : List Char) : Segment → Prop
  | char c => c ∉ ['\'', '"', '\\', '$', '`'] ∧ (c ∈ ['<', '>'] → rest.head? ≠ some '(')
  | escaped c => c ≠ '\n'
  | continuation => True
  | backslash => rest = []
  | dollar => LoneDollar rest ∧ rest.head? ≠ some '\'' ∧ rest.head? ≠ some '"'
  | single t => '\'' ∉ t
  | double qs => QuotedWellFormed qs
  | localized qs => QuotedWellFormed qs
  | ansi es => AnsiWellFormed es
  | reference r => r.WellFormed rest
  | process _ v => commandBalanced (Utf8.encode v)

end Segment

/-- The text of a word. -/
def sourceOf (ss : List Segment) : List Char := ss.flatMap Segment.source

/-- Its literal text. -/
def textOf (ss : List Segment) : Tagged := ss.flatMap Segment.text

def WellFormed : List Segment → Prop
  | [] => True
  | s :: ss => s.WellFormed (sourceOf ss) ∧ WellFormed ss

/-! ## 2. Literal parts -/

mutual

/-- The literal text of a part. -/
def literalOf : WordPart → List Char
  | .literal t => t
  | .doubleQuoted ps => literalsOf ps
  | _ => []

def literalsOf : List WordPart → List Char
  | [] => []
  | p :: ps => literalOf p ++ literalsOf ps

end

@[simp] theorem literalsOf_nil : literalsOf [] = [] := by rw [literalsOf]

@[simp] theorem literalsOf_cons (p : WordPart) (ps : List WordPart) :
    literalsOf (p :: ps) = literalOf p ++ literalsOf ps := by rw [literalsOf]

@[simp] theorem literalsOf_append (ps qs : List WordPart) :
    literalsOf (ps ++ qs) = literalsOf ps ++ literalsOf qs := by
  induction ps with
  | nil => simp
  | cons p ps ih => simp [ih]

@[simp] theorem literalOf_literal (t : List Char) : literalOf (.literal t) = t := by rw [literalOf]

@[simp] theorem literalOf_doubleQuoted (ps : List WordPart) :
    literalOf (.doubleQuoted ps) = literalsOf ps := by rw [literalOf]

@[simp] theorem literalsOf_flush (lit : List Char) : literalsOf (flush lit) = lit := by
  unfold flush
  split
  · next h => rw [h, literalsOf_nil]
  · simp

mutual

/-- Literal text is not decoded. -/
theorem literalOf_decodePart (p : WordPart) :
    literalOf (Parser.decodePart p) = literalOf p := by
  cases p with
  | doubleQuoted ps =>
    rw [Parser.decodePart, literalOf_doubleQuoted, literalOf_doubleQuoted]
    exact literalsOf_decodeParts ps
  | _ => rfl

theorem literalsOf_decodeParts (ps : List WordPart) :
    literalsOf (Parser.decodeParts ps) = literalsOf ps := by
  cases ps with
  | nil => rfl
  | cons p ps =>
    rw [Parser.decodeParts, literalsOf_cons, literalsOf_cons, literalOf_decodePart p,
      literalsOf_decodeParts ps]

end

/-- What the code makes of a character: its bytes, when it is copied. -/
def written (e : Char × Bool) : List Char := if e.2 then Utf8.encodeChar e.1 else [e.1]

/-! ## 3. References -/

section

variable {rest : List Char} {pos : Nat}

/-- A test that all other characters pass says the same of a text and of its bytes. -/
theorem head?_all_bytes {p : Char → Bool} (hp : ∀ c, 0x80 ≤ c.toNat → p c = true)
    {rest more : List Char} (hmore : rest ≠ [] ∨ more = []) :
    (Utf8.encode rest ++ more).head?.all p = rest.head?.all p := by
  rcases Utf8.encode_cases rest with rfl | ⟨c, t, rfl, h⟩ | ⟨c, t, b, r, rfl, hc, h, hb⟩
  · rw [hmore.resolve_left (fun h => h rfl)]
    rfl
  · rw [h]
    rfl
  · rw [h]
    simp [hp c hc, hp b hb]

theorem isNameByte_of_not_ascii (hc : 0x80 ≤ c.toNat) : isNameByte c = false := by
  rw [Bool.eq_false_iff]
  intro h
  have := isNameByte_ascii h
  omega

theorem takeWhile_name {n : List Char} (hn : n.all isNameByte = true)
    (hrest : rest.head?.all (fun c => !isNameByte c) = true) :
    (n ++ rest).takeWhile isNameByte = n := by
  rw [List.takeWhile_append_of_pos (List.all_eq_true.mp hn)]
  cases rest with
  | nil => simp
  | cons b r =>
    have hb : isNameByte b = false := by simpa using hrest
    rw [List.takeWhile_cons_of_neg (by simp [hb]), List.append_nil]

/-- A reference before a text is one before its bytes. -/
theorem Reference.WellFormed.bytes (more : List Char) (hwell : r.WellFormed rest)
    (hmore : rest ≠ [] ∨ more = []) : r.WellFormed (Utf8.encode rest ++ more) := by
  cases r with
  | name n =>
    refine ⟨hwell.1, hwell.2.1, ?_⟩
    rw [head?_all_bytes (fun c hc => by rw [isNameByte_of_not_ascii hc]; rfl) hmore]
    exact hwell.2.2
  | _ => exact hwell

/-- The body and its end, as the scanners of the word parser are stated for. -/
theorem closes_of_bytes (pos : Nat) (v closing rest : List Char) :
    Closes (⟨pos, v ++ closing ++ rest⟩ : Text) closing
      ⟨pos + v.length + closing.length, rest⟩ v :=
  ⟨rfl, rfl⟩

/-- The bytes of a body between delimiters. -/
theorem encode_body {closing : List Char} (h : (c :: closing).all (·.toNat < 0x80) = true)
    (v : List Char) : Utf8.encode (c :: (v ++ closing)) = c :: (Utf8.encode v ++ closing) := by
  have h := List.all_iff_forall_prop.mp h
  rw [Utf8.encode_cons, Utf8.encodeChar_of_ascii (h c List.mem_cons_self), Utf8.encode_append,
    Utf8.encode_of_ascii fun d hd => h d (.tail _ hd)]
  rfl

/-- A special parameter is no other reference. -/
theorem isSpecialParam_apart (h : isSpecialParam c = true) :
    c.toNat < 0x80 ∧ c ≠ '(' ∧ c ≠ '{' ∧ isNameStart c = false := by
  rw [isSpecialParam, Bool.or_eq_true] at h
  rcases h with hmem | hdigit
  · exact (List.all_iff_forall_prop.mp (by decide) : ∀ c ∈ ['?', '!', '#', '$', '@', '*', '-'],
      c.toNat < 0x80 ∧ c ≠ '(' ∧ c ≠ '{' ∧ isNameStart c = false) c
        (List.contains_iff_mem.mp hmem)
  · have hne : ∀ d, Char.isDigit d = false → c ≠ d := by
      rintro _ hd rfl
      rw [hdigit] at hd
      cases hd
    have hname : isNameByte c = true := by simp [isNameByte, Char.isAlphanum, hdigit]
    refine ⟨isNameByte_ascii hname, hne _ (by decide), hne _ (by decide), ?_⟩
    rw [Bool.eq_false_iff]
    intro hstart
    rw [not_isDigit_of_isNameStart hstart] at hdigit
    cases hdigit

/-- `parse_dollar` reads a reference to its end, and makes no literal text of it. -/
theorem parseDollar_reference (hwell : r.WellFormed rest) {t : List Char}
    (ht : r.source = '$' :: t) (pos : Nat) :
    ∃ p, parseDollar ⟨pos, Utf8.encode t ++ rest⟩ = some p ∧
      literalOf p.part = [] ∧ p.next.rest = rest := by
  cases r with
  | name n =>
    obtain rfl : n = t := (List.cons.inj ht).2
    obtain ⟨hstart, hbytes, hnext⟩ := hwell
    rw [Utf8.encode_of_ascii fun c hc => isNameByte_ascii (List.all_eq_true.mp hbytes c hc)]
    cases n with
    | nil => cases hstart
    | cons c n =>
      have hstart : isNameStart c = true := hstart
      have htake := takeWhile_name hbytes hnext
      refine ⟨parseNamedParameter ⟨pos, (c :: n) ++ rest⟩, ?_, rfl, ?_⟩
      · unfold parseDollar
        dsimp only
        split
        · next heq => cases heq
        · next heq =>
          rw [(List.cons.inj heq).1] at hstart
          cases hstart
        · next heq =>
          rw [(List.cons.inj heq).1] at hstart
          cases hstart
        · next b _ _ _ heq =>
          obtain rfl : c = b := (List.cons.inj heq).1
          rw [if_pos hstart]
      · rw [parseNamedParameter]
        dsimp only [Cursor.skip]
        rw [htake, List.drop_left]
  | special c =>
    obtain rfl : [c] = t := (List.cons.inj ht).2
    have hspecial : isSpecialParam c = true := hwell
    obtain ⟨hascii, hopen, hbrace, hstart⟩ := isSpecialParam_apart hspecial
    rw [Utf8.encode_of_ascii (by simpa using hascii)]
    refine ⟨parseSpecialParameter ⟨pos, [c] ++ rest⟩, ?_, rfl, rfl⟩
    unfold parseDollar
    dsimp only
    split
    · next heq => cases heq
    · next heq => exact absurd (List.cons.inj heq).1 hopen
    · next heq => exact absurd (List.cons.inj heq).1 hbrace
    · next b _ _ _ heq =>
      obtain rfl : c = b := (List.cons.inj heq).1
      rw [if_neg (by rw [hstart]; exact Bool.false_ne_true), if_pos hspecial]
  | braces v =>
    obtain rfl : '{' :: (v ++ ['}']) = t := (List.cons.inj ht).2
    have hclosed := (parseBrace_closesAt
      (closes_of_bytes (pos + 1) (Utf8.encode v) ['}'] rest)).mpr hwell
    rw [encode_body (by decide)]
    exact ⟨_, rfl, rfl, congrArg Cursor.rest hclosed.2⟩
  | command v =>
    obtain rfl : '(' :: (v ++ [')']) = t := (List.cons.inj ht).2
    have hclosed := (parseCommand_closesAt
      (closes_of_bytes (pos + 1) (Utf8.encode v) [')'] rest)).mpr hwell.1
    have hhead : (Utf8.encode v ++ [')'] ++ rest).head? ≠ some '(' := by
      have hv := (Utf8.head?_encode (by decide) v).not.mpr hwell.2
      cases hbytes : Utf8.encode v with
      | nil => simp
      | cons b r =>
        rw [hbytes] at hv
        exact hv
    have hparen : parseDollarParen ⟨pos, '(' :: (Utf8.encode v ++ [')'] ++ rest)⟩ =
        parseDollarCmdSubst ⟨pos + 1, Utf8.encode v ++ [')'] ++ rest⟩ := if_neg hhead
    rw [encode_body (by decide)]
    exact ⟨_, congrArg some hparen, rfl, congrArg Cursor.rest hclosed.2⟩
  | arithmetic v =>
    obtain rfl : '(' :: '(' :: (v ++ [')', ')']) = t := (List.cons.inj ht).2
    have hclosed := (parseArith_closesAt
      (closes_of_bytes (pos + 2) (Utf8.encode v) [')', ')'] rest)).mpr hwell
    rw [Utf8.encode_cons, encode_body (by decide)]
    exact ⟨_, rfl, rfl, congrArg Cursor.rest hclosed.2⟩
  | backticks v => cases ht

/-- A lone `$` before a text is one before its bytes. -/
theorem LoneDollar.bytes (more : List Char) (h : LoneDollar rest) (hmore : rest ≠ [] ∨ more = []) :
    LoneDollar (Utf8.encode rest ++ more) := by
  rw [LoneDollar, head?_all_bytes _ hmore]
  · exact h
  · intro c hc
    have hascii : ∀ d ∈ ['(', '{', '?', '!', '#', '$', '@', '*', '-'], c ≠ d := by
      rintro _ hd rfl
      have := (List.all_iff_forall_prop.mp (by decide) :
        ∀ d ∈ ['(', '{', '?', '!', '#', '$', '@', '*', '-'], d.toNat < 0x80) c hd
      omega
    have hname := isNameByte_of_not_ascii hc
    simp only [isNameByte, Char.isAlphanum, Bool.or_eq_false_iff] at hname
    simp [isNameStart, isSpecialParam, hname, hascii]

theorem parseDollar_lone (h : LoneDollar rest) (pos : Nat) : parseDollar ⟨pos, rest⟩ = none := by
  cases rest with
  | nil => rfl
  | cons b r =>
    simp only [LoneDollar, List.head?_cons, Option.all_some, Bool.not_eq_true',
      Bool.or_eq_false_iff] at h
    obtain ⟨⟨hopen, hname⟩, hspecial⟩ := h
    unfold parseDollar
    dsimp only
    split
    · next heq => cases heq
    · next heq =>
      rw [(List.cons.inj heq).1] at hopen
      cases hopen
    · next heq =>
      rw [(List.cons.inj heq).1] at hopen
      cases hopen
    · next d _ _ _ heq =>
      obtain rfl : b = d := (List.cons.inj heq).1
      rw [if_neg (by rw [hname]; exact Bool.false_ne_true),
        if_neg (by rw [hspecial]; exact Bool.false_ne_true)]

/-- The bytes of a character are among no ASCII characters but itself. -/
theorem not_mem_of_mem_encodeChar {l : List Char} (hl : l.all (·.toNat < 0x80) = true)
    (hc : c ∉ l) : ∀ b ∈ Utf8.encodeChar c, b ∉ l := by
  intro b hb hmem
  rw [Utf8.eq_of_mem_encodeChar (List.all_iff_forall_prop.mp hl b hmem) hb] at hmem
  exact hc hmem

/-! ## 4. Double quotes -/

/-- The loop of `parse_double_quoted` makes that literal text of the bytes, and leaves `rest`. -/
def ReadsQuoted (bytes text rest : List Char) : Prop :=
  ∀ n pos lit, bytes.length ≤ n →
    literalsOf (doubleQuotedLoop n lit ⟨pos, bytes⟩).content.parts = lit ++ text ∧
      (doubleQuotedLoop n lit ⟨pos, bytes⟩).next.rest = rest

variable {more text : List Char}

theorem readsQuoted_close (rest : List Char) : ReadsQuoted ('"' :: rest) [] rest := by
  intro n pos lit hn
  cases n with
  | zero => cases hn
  | succ n => exact ⟨(literalsOf_flush lit).trans (List.append_nil lit).symm, rfl⟩

/-- A turn that only adds to the literal text. -/
theorem ReadsQuoted.turn {bytes : List Char} (pushed : List Char) (h : ReadsQuoted more text rest)
    (hlen : more.length < bytes.length)
    (hturn : ∀ n pos lit, ∃ pos', doubleQuotedLoop (n + 1) lit ⟨pos, bytes⟩ =
      doubleQuotedLoop n (lit ++ pushed) ⟨pos', more⟩) :
    ReadsQuoted bytes (pushed ++ text) rest := by
  intro n pos lit hn
  cases n with
  | zero => omega
  | succ n =>
    obtain ⟨pos', hloop⟩ := hturn n pos lit
    rw [hloop, ← List.append_assoc]
    exact h n pos' (lit ++ pushed) (by omega)

/-- A turn that pushes the literal text so far, and a part without any. -/
theorem ReadsQuoted.part {bytes : List Char} (pushed : List Char) (h : ReadsQuoted more text rest)
    (hlen : more.length < bytes.length)
    (hturn : ∀ n pos lit, ∃ pos' parts marks, literalsOf parts = lit ∧
      doubleQuotedLoop (n + 1) lit ⟨pos, bytes⟩ =
        .prepend parts marks (doubleQuotedLoop n pushed ⟨pos', more⟩)) :
    ReadsQuoted bytes (pushed ++ text) rest := by
  intro n pos lit hn
  cases n with
  | zero => omega
  | succ n =>
    obtain ⟨pos', parts, marks, hparts, hloop⟩ := hturn n pos lit
    obtain ⟨htext, hrest⟩ := h n pos' pushed (by omega)
    rw [hloop]
    refine ⟨?_, hrest⟩
    rw [Body.prepend, literalsOf_append, hparts, htext]

theorem ReadsQuoted.copied (bs : List Char) (hbs : ∀ b ∈ bs, b ∉ ['"', '\\', '$', '`'])
    (h : ReadsQuoted more text rest) : ReadsQuoted (bs ++ more) (bs ++ text) rest := by
  induction bs with
  | nil => exact h
  | cons b bs ih =>
    have hb := hbs b List.mem_cons_self
    simp only [List.mem_cons, List.not_mem_nil, or_false, not_or] at hb
    refine (ih fun d hd => hbs d (.tail _ hd)).turn [b] (by simp) ?_
    intro n pos lit
    refine ⟨pos + 1, ?_⟩
    rw [List.cons_append, doubleQuotedLoop]
    dsimp only
    split
    · next heq => cases heq
    · next heq => exact absurd (List.cons.inj heq).1 hb.1
    · next heq => exact absurd (List.cons.inj heq).1 hb.2.1
    · next heq => exact absurd (List.cons.inj heq).1 hb.2.2.1
    · next heq => exact absurd (List.cons.inj heq).1 hb.2.2.2
    · next heq =>
      obtain ⟨rfl, rfl⟩ := List.cons.inj heq
      rfl

/-- `dq_backslash`. -/
theorem ReadsQuoted.escape {b : Char} (hb : b ≠ '\n') (h : ReadsQuoted more text rest) :
    ReadsQuoted ('\\' :: b :: more)
      ((if ['$', '`', '"', '\\'].contains b then [b] else ['\\', b]) ++ text) rest := by
  refine h.turn _ (Nat.lt_succ_of_lt (Nat.lt_succ_self _)) ?_
  intro n pos lit
  refine ⟨pos + 2, ?_⟩
  have hstep : dqBackslash lit ⟨pos, '\\' :: b :: more⟩ =
      (lit ++ (if ['$', '`', '"', '\\'].contains b then [b] else ['\\', b]),
        ⟨pos + 2, more⟩) := by
    unfold dqBackslash
    dsimp only
    split
    · next heq => exact absurd (List.cons.inj (List.cons.inj heq).2).1 hb
    · next heq =>
      obtain ⟨rfl, rfl⟩ := List.cons.inj (List.cons.inj heq).2
      split <;> rfl
    · next hnot => exact absurd rfl (hnot _ _ _)
  rw [doubleQuotedLoop]
  dsimp only
  rw [hstep]
  rfl

theorem ReadsQuoted.continuation (h : ReadsQuoted more text rest) :
    ReadsQuoted ('\\' :: '\n' :: more) text rest := by
  refine h.turn [] (Nat.lt_succ_of_lt (Nat.lt_succ_self _)) ?_
  intro n pos lit
  rw [List.append_nil]
  exact ⟨pos + 2, rfl⟩

theorem ReadsQuoted.dollar (hlone : LoneDollar more) (h : ReadsQuoted more text rest) :
    ReadsQuoted ('$' :: more) ('$' :: text) rest := by
  refine h.part ['$'] (by simp) ?_
  intro n pos lit
  refine ⟨pos + 1, flush lit, [], literalsOf_flush lit, ?_⟩
  have hnone : parseDollar (Cursor.skip ⟨pos, '$' :: more⟩ 1) = none :=
    parseDollar_lone hlone (pos + 1)
  rw [doubleQuotedLoop]
  dsimp only
  rw [hnone]
  rfl

theorem ReadsQuoted.reference (hwell : r.WellFormed more) (h : ReadsQuoted more text rest) :
    ReadsQuoted (Utf8.encode r.source ++ more) text rest := by
  have hturn : ∀ n pos lit, ∃ pos' parts marks, literalsOf parts = lit ∧
      doubleQuotedLoop (n + 1) lit ⟨pos, Utf8.encode r.source ++ more⟩ =
        .prepend parts marks (doubleQuotedLoop n [] ⟨pos', more⟩) := by
    intro n pos lit
    by_cases hticks : ∃ v, r = .backticks v
    · obtain ⟨v, rfl⟩ := hticks
      rw [Reference.source, encode_body (by decide),
        List.cons_append]
      obtain ⟨c', hc'⟩ : ∃ c' : Text, c' = ⟨pos + 1, Utf8.encode v ++ ['`'] ++ more⟩ := ⟨_, rfl⟩
      have hskip : Cursor.skip ⟨pos, '`' :: (Utf8.encode v ++ ['`'] ++ more)⟩ 1 = c' := hc'.symm
      have hclosed := (parseBacktick_closesAt hwell
        (closes_of_bytes (pos + 1) (Utf8.encode v) ['`'] more)).2
      rw [← hc'] at hclosed
      refine ⟨pos + 1 + (Utf8.encode v).length + 1,
        flush lit ++ [.commandSubstitution (Utf8.encode (parseBacktick c').content)],
        (parseBacktick c').marks .backtick c' [], by simp [literalOf], ?_⟩
      rw [List.length_singleton] at hclosed
      rw [← hclosed, doubleQuotedLoop]
      dsimp only
      rw [hskip]
      rfl
    · have hsource : ∃ t, r.source = '$' :: t := by
        cases r with
        | backticks v => exact absurd ⟨v, rfl⟩ hticks
        | _ => exact ⟨_, rfl⟩
      obtain ⟨t, ht⟩ := hsource
      obtain ⟨p, hp, hpart, rfl⟩ := parseDollar_reference hwell ht (pos + 1)
      rw [ht, Utf8.encode_cons, Utf8.encodeChar_of_ascii (by decide), List.singleton_append,
        List.cons_append]
      refine ⟨p.next.pos, flush lit ++ [p.part], p.marks, by simp [hpart], ?_⟩
      replace hp : parseDollar (Cursor.skip ⟨pos, '$' :: (Utf8.encode t ++ p.next.rest)⟩ 1) =
        some p := hp
      rw [doubleQuotedLoop]
      dsimp only
      rw [hp]
      rfl
  refine h.part [] ?_ hturn
  have hne : Utf8.encode r.source ≠ [] := by
    cases r <;> exact List.cons_ne_nil _ _
  rw [List.length_append]
  have := List.length_pos_iff.mpr hne
  omega

/-- A character that is copied. -/
theorem written_copied (c : Char) : written (c, true) = Utf8.encodeChar c := rfl

theorem head_encodeChar (c : Char) : ∃ b bs, Utf8.encodeChar c = b :: bs :=
  List.exists_cons_of_ne_nil (Utf8.encodeChar_ne_nil c)

/-- A double-quoted text. -/
theorem readsQuoted_items (hwell : QuotedWellFormed qs)
    (after : List Char) : ReadsQuoted (Utf8.encode (quotedSource qs) ++ '"' :: after)
      ((qs.flatMap QuotedItem.text).flatMap written) after := by
  induction qs with
  | nil => exact readsQuoted_close after
  | cons q qs ih =>
    obtain ⟨hq, hwell⟩ := hwell
    have ih := ih hwell
    have hmore : quotedSource qs ++ ['"'] ≠ [] ∨ after = [] := Or.inl (by simp)
    have hrest : Utf8.encode (quotedSource qs ++ ['"']) ++ after =
        Utf8.encode (quotedSource qs) ++ '"' :: after := by
      rw [Utf8.encode_append, List.append_assoc]
      rfl
    have hsource : Utf8.encode (quotedSource (q :: qs)) ++ '"' :: after =
        Utf8.encode q.source ++ (Utf8.encode (quotedSource qs) ++ '"' :: after) := by
      rw [quotedSource, List.flatMap_cons, Utf8.encode_append, List.append_assoc]
      rfl
    have htext : ((q :: qs).flatMap QuotedItem.text).flatMap written =
        q.text.flatMap written ++ (qs.flatMap QuotedItem.text).flatMap written := by
      rw [List.flatMap_cons, List.flatMap_append]
    rw [hsource, htext]
    cases q with
    | char c =>
      have hbytes := not_mem_of_mem_encodeChar (by decide) hq
      simpa [QuotedItem.source, QuotedItem.text, written_copied] using ih.copied _ hbytes
    | escaped c =>
      have hmem : c ∈ ['$', '`', '"', '\\'] := hq
      have hascii := (List.all_iff_forall_prop.mp (by decide) :
        ∀ c ∈ ['$', '`', '"', '\\'], c.toNat < 0x80 ∧ c ≠ '\n') c hmem
      have hescape := ih.escape hascii.2
      rw [if_pos (List.contains_iff_mem.mpr hmem)] at hescape
      have hsource : Utf8.encode ['\\', c] = ['\\', c] :=
        Utf8.encode_of_ascii (by simpa using hascii.1)
      simpa [QuotedItem.source, QuotedItem.text, written_copied, hsource,
        Utf8.encodeChar_of_ascii hascii.1] using hescape
    | backslash c =>
      have hbytes := not_mem_of_mem_encodeChar (by decide) hq
      obtain ⟨b, bs, hchar⟩ := head_encodeChar c
      rw [hchar] at hbytes
      have hb := hbytes b List.mem_cons_self
      simp only [List.mem_cons, List.not_mem_nil, or_false, not_or] at hb
      have hcopied := ih.copied bs fun d hd => by
        have hd := hbytes d (.tail _ hd)
        simp only [List.mem_cons, List.not_mem_nil, or_false, not_or] at hd ⊢
        exact ⟨hd.2.2.1, hd.2.2.2.1, hd.1, hd.2.1⟩
      have hescape := hcopied.escape hb.2.2.2.2
      rw [if_neg (by simp [hb])] at hescape
      simpa [QuotedItem.source, QuotedItem.text, written_copied, hchar,
        Utf8.encodeChar_of_ascii (by decide : '\\'.toNat < 0x80)] using hescape
    | continuation => exact ih.continuation
    | dollar =>
      have hlone := LoneDollar.bytes after hq hmore
      rw [hrest] at hlone
      exact ih.dollar hlone
    | reference r =>
      have hreference := Reference.WellFormed.bytes after hq hmore
      rw [hrest] at hreference
      exact ih.reference hreference

/-! ## 5. ANSI-C quotes -/

/-- The loop of `parse_ansi_c_quoted` makes that text of the bytes, and leaves `rest`. -/
def ReadsAnsi (bytes text rest : List Char) : Prop :=
  ∀ n pos result, bytes.length ≤ n →
    (ansiCLoop result n ⟨pos, bytes⟩).content = result ++ text ∧
      (ansiCLoop result n ⟨pos, bytes⟩).next.rest = rest

theorem readsAnsi_close (rest : List Char) : ReadsAnsi ('\'' :: rest) [] rest := by
  intro n pos result hn
  cases n with
  | zero => cases hn
  | succ n => exact ⟨(List.append_nil result).symm, rfl⟩

theorem ReadsAnsi.turn {bytes : List Char} (pushed : List Char) (h : ReadsAnsi more text rest)
    (hlen : more.length < bytes.length)
    (hturn : ∀ n pos result, ∃ pos', ansiCLoop result (n + 1) ⟨pos, bytes⟩ =
      ansiCLoop (result ++ pushed) n ⟨pos', more⟩) :
    ReadsAnsi bytes (pushed ++ text) rest := by
  intro n pos result hn
  cases n with
  | zero => omega
  | succ n =>
    obtain ⟨pos', hloop⟩ := hturn n pos result
    rw [hloop, ← List.append_assoc]
    exact h n pos' (result ++ pushed) (by omega)

theorem ReadsAnsi.copied (bs : List Char) (hbs : ∀ b ∈ bs, b ∉ ['\'', '\\'])
    (h : ReadsAnsi more text rest) : ReadsAnsi (bs ++ more) (bs ++ text) rest := by
  induction bs with
  | nil => exact h
  | cons b bs ih =>
    have hb := hbs b List.mem_cons_self
    simp only [List.mem_cons, List.not_mem_nil, or_false, not_or] at hb
    refine (ih fun d hd => hbs d (.tail _ hd)).turn [b] (by simp) ?_
    intro n pos result
    refine ⟨pos + 1, ?_⟩
    rw [List.cons_append, ansiCLoop]
    dsimp only
    split
    · next heq => cases heq
    · next heq => exact absurd (List.cons.inj heq).1 hb.1
    · next heq => exact absurd (List.cons.inj heq).1 hb.2
    · next heq =>
      obtain ⟨rfl, rfl⟩ := List.cons.inj heq
      rfl

theorem ReadsAnsi.escape (bytes pushed : List Char) (h : ReadsAnsi more text rest)
    (hlen : more.length ≤ bytes.length)
    (hescape : ∀ pos, ∃ pos', ansiCEscape ⟨pos, bytes⟩ = (pushed, ⟨pos', more⟩)) :
    ReadsAnsi ('\\' :: bytes) (pushed ++ text) rest := by
  refine h.turn pushed (Nat.lt_succ_of_le hlen) ?_
  intro n pos result
  obtain ⟨pos', hescape⟩ := hescape (pos + 1)
  refine ⟨pos', ?_⟩
  replace hescape : ansiCEscape (Cursor.skip ⟨pos, '\\' :: bytes⟩ 1) = (pushed, ⟨pos', more⟩) :=
    hescape
  rw [ansiCLoop]
  dsimp only
  rw [hescape]
  rfl

theorem hexDigit_ascii (h : (hexDigit c).isSome = true) : c.toNat < 0x80 := by
  have hle : ∀ d : Char, d.toNat < 0x80 → c ≤ d → c.toNat < 0x80 := fun d hd hcd =>
    Nat.lt_of_le_of_lt hcd hd
  unfold hexDigit at h
  split at h
  · next hc => exact hle '9' (by decide) hc.2
  · split at h
    · next hc => exact hle 'f' (by decide) hc.2
    · split at h
      · next hc => exact hle 'F' (by decide) hc.2
      · cases h

theorem isOctalDigit_ascii (h : isOctalDigit c = true) : c.toNat < 0x80 :=
  Nat.lt_of_le_of_lt (of_decide_eq_true h).2 (by decide)

theorem parseHexDigits_digits {ds : List Char} {n : Nat} (val pos : Nat)
    (hds : ds.all (fun c => (hexDigit c).isSome) = true)
    (hend : ds.length = n ∨ ds.length < n ∧ more.head?.all (fun c => (hexDigit c).isNone) = true) :
    parseHexDigits n val ⟨pos, ds ++ more⟩ =
      (ds.foldl (fun n c => (n * 16 + (hexDigit c).getD 0) % 256) val, ⟨pos + ds.length, more⟩) := by
  induction ds generalizing n val pos with
  | nil =>
    cases n with
    | zero => rfl
    | succ n =>
      have hmore : more.head?.all (fun c => (hexDigit c).isNone) = true :=
        (hend.resolve_left (Nat.succ_ne_zero n).symm).2
      have hnone : more.head?.bind hexDigit = none := by
        cases more with
        | nil => rfl
        | cons b r => simpa using hmore
      rw [List.nil_append, parseHexDigits]
      dsimp only
      rw [hnone]
      rfl
  | cons d ds ih =>
    cases n with
    | zero => simp at hend
    | succ n =>
      rw [List.all_cons, Bool.and_eq_true] at hds
      obtain ⟨v, hv⟩ := Option.isSome_iff_exists.mp hds.1
      have hend : ds.length = n ∨
          ds.length < n ∧ more.head?.all (fun c => (hexDigit c).isNone) = true := by
        rcases hend with heq | ⟨hlt, hnone⟩
        · exact Or.inl (Nat.succ.inj heq)
        · exact Or.inr ⟨Nat.lt_of_succ_lt_succ hlt, hnone⟩
      have hhead : ((d :: ds) ++ more).head?.bind hexDigit = some v := hv
      rw [parseHexDigits]
      dsimp only
      rw [hhead]
      dsimp only [Cursor.skip]
      rw [List.cons_append, List.drop_one, List.tail_cons, ih _ _ hds.2 hend, List.foldl_cons, hv,
        List.length_cons, Option.getD_some, Nat.add_assoc, Nat.add_comm 1]

theorem parseOctalDigits_digits {ds : List Char} {n : Nat} (val pos : Nat)
    (hds : ds.all isOctalDigit = true)
    (hend : ds.length = n ∨ ds.length < n ∧ more.head?.all (fun c => !isOctalDigit c) = true) :
    parseOctalDigits n val ⟨pos, ds ++ more⟩ =
      (ds.foldl (fun n c => (n * 8 + (c.toNat - '0'.toNat)) % 256) val,
        ⟨pos + ds.length, more⟩) := by
  induction ds generalizing n val pos with
  | nil =>
    cases n with
    | zero => rfl
    | succ n =>
      have hmore : more.head?.all (fun c => !isOctalDigit c) = true :=
        (hend.resolve_left (Nat.succ_ne_zero n).symm).2
      rw [List.nil_append, parseOctalDigits]
      dsimp only
      split
      · next b r =>
        have hb : isOctalDigit b = false := by simpa using hmore
        rw [if_neg (of_decide_eq_false hb)]
        rfl
      · rfl
  | cons d ds ih =>
    cases n with
    | zero => simp at hend
    | succ n =>
      rw [List.all_cons, Bool.and_eq_true] at hds
      have hend : ds.length = n ∨
          ds.length < n ∧ more.head?.all (fun c => !isOctalDigit c) = true := by
        rcases hend with heq | ⟨hlt, hnone⟩
        · exact Or.inl (Nat.succ.inj heq)
        · exact Or.inr ⟨Nat.lt_of_succ_lt_succ hlt, hnone⟩
      rw [List.cons_append, parseOctalDigits]
      dsimp only
      rw [if_pos (of_decide_eq_true hds.1)]
      dsimp only [Cursor.skip]
      rw [List.drop_one, List.tail_cons, ih _ _ hds.2 hend, List.foldl_cons, List.length_cons,
        Nat.add_assoc, Nat.add_comm 1]

theorem ansiCEscape_simple {c v : Char} (h : (c, v) ∈ simpleEscapes) (pos : Nat) (r : List Char) :
    ansiCEscape ⟨pos, c :: r⟩ = ([v], ⟨pos + 1, r⟩) := by
  simp only [simpleEscapes, List.mem_cons, List.not_mem_nil, or_false, Prod.mk.injEq] at h
  rcases h with ⟨rfl, rfl⟩ | ⟨rfl, rfl⟩ | ⟨rfl, rfl⟩ | ⟨rfl, rfl⟩ | ⟨rfl, rfl⟩ | ⟨rfl, rfl⟩ |
    ⟨rfl, rfl⟩ | ⟨rfl, rfl⟩ | ⟨rfl, rfl⟩ | ⟨rfl, rfl⟩ | ⟨rfl, rfl⟩ | ⟨rfl, rfl⟩
  all_goals rfl

theorem ansiCEscape_hex {pos v : Nat} {r : List Char} {c' : Text}
    (h : parseHexDigits 2 0 ⟨pos + 1, r⟩ = (v, c')) :
    ansiCEscape ⟨pos, 'x' :: r⟩ = ([Char.ofNat v], c') := by
  have hstep : ansiCEscape ⟨pos, 'x' :: r⟩ = ([Char.ofNat (parseHexDigits 2 0 ⟨pos + 1, r⟩).1],
    (parseHexDigits 2 0 ⟨pos + 1, r⟩).2) := rfl
  rw [hstep, h]

/-- A byte that no letter of the escapes is. -/
theorem ansiCEscape_other {b : Char} (hb : b ∉ simpleEscapes.map Prod.fst) (hx : b ≠ 'x')
    (pos : Nat) (r : List Char) : ansiCEscape ⟨pos, b :: r⟩ =
      if isOctalDigit b then ([Char.ofNat (parseOctalDigits 3 0 ⟨pos, b :: r⟩).1],
        (parseOctalDigits 3 0 ⟨pos, b :: r⟩).2)
      else (['\\', b], ⟨pos + 1, r⟩) := by
  simp only [simpleEscapes, List.map_cons, List.map_nil, List.mem_cons, List.not_mem_nil, or_false,
    not_or] at hb
  obtain ⟨h₁, h₂, h₃, h₄, h₅, h₆, h₇, h₈, h₉, h₁₀, h₁₁, h₁₂⟩ := hb
  unfold ansiCEscape
  dsimp only
  split
  all_goals try
    next heq => exact absurd (List.cons.inj heq).1 (by assumption)
  · next heq =>
    obtain ⟨rfl, rfl⟩ := List.cons.inj heq
    simp only [isOctalDigit, decide_eq_true_eq]
    rfl
  · next heq => cases heq

/-- The text of `$'...'`. -/
theorem readsAnsi_items {es : List AnsiItem} (hwell : AnsiWellFormed es) (after : List Char) :
    ReadsAnsi (Utf8.encode (ansiSource es) ++ '\'' :: after)
      ((es.flatMap AnsiItem.text).flatMap written) after := by
  induction es with
  | nil => exact readsAnsi_close after
  | cons e es ih =>
    obtain ⟨he, hwell⟩ := hwell
    have ih := ih hwell
    have hmore : ansiSource es ++ ['\''] ≠ [] ∨ after = [] := Or.inl (by simp)
    have hrest : Utf8.encode (ansiSource es ++ ['\'']) ++ after =
        Utf8.encode (ansiSource es) ++ '\'' :: after := by
      rw [Utf8.encode_append, List.append_assoc]
      rfl
    have hsource : Utf8.encode (ansiSource (e :: es)) ++ '\'' :: after =
        Utf8.encode e.source ++ (Utf8.encode (ansiSource es) ++ '\'' :: after) := by
      rw [ansiSource, List.flatMap_cons, Utf8.encode_append, List.append_assoc]
      rfl
    have htext : ((e :: es).flatMap AnsiItem.text).flatMap written =
        e.text.flatMap written ++ (es.flatMap AnsiItem.text).flatMap written := by
      rw [List.flatMap_cons, List.flatMap_append]
    rw [hsource, htext]
    cases e with
    | char c =>
      have hbytes := not_mem_of_mem_encodeChar (by decide) he
      simpa [AnsiItem.source, AnsiItem.text, written_copied] using ih.copied _ hbytes
    | escape c v =>
      have hascii : c.toNat < 0x80 := (List.all_iff_forall_prop.mp (by decide) :
        ∀ e ∈ simpleEscapes, e.1.toNat < 0x80) (c, v) he
      have hsource : Utf8.encode ['\\', c] = ['\\', c] :=
        Utf8.encode_of_ascii (by simpa using hascii)
      have hescape := ih.escape (c :: (Utf8.encode (ansiSource es) ++ '\'' :: after)) [v]
        (Nat.le_succ _) fun pos => ⟨pos + 1, ansiCEscape_simple he pos _⟩
      rw [AnsiItem.source, hsource]
      exact hescape
    | hex ds =>
      obtain ⟨hds, hend⟩ := he
      have hend : ds.length = 2 ∨ ds.length < 2 ∧
          (Utf8.encode (ansiSource es) ++ '\'' :: after).head?.all
            (fun c => (hexDigit c).isNone) = true := by
        rw [← hrest, head?_all_bytes _ hmore]
        · exact hend
        · intro c hc
          rw [Option.isNone_iff_eq_none, ← Option.not_isSome_iff_eq_none]
          intro hsome
          have := hexDigit_ascii hsome
          omega
      have hsource : Utf8.encode ('\\' :: 'x' :: ds) = '\\' :: 'x' :: ds := by
        apply Utf8.encode_of_ascii
        intro c hc
        rcases List.mem_cons.mp hc with rfl | hc
        · decide
        · rcases List.mem_cons.mp hc with rfl | hc
          · decide
          · exact hexDigit_ascii (List.all_eq_true.mp hds c hc)
      have hescape := ih.escape
        ('x' :: (ds ++ (Utf8.encode (ansiSource es) ++ '\'' :: after)))
        [byteOf 16 (fun c => (hexDigit c).getD 0) ds]
        (by simp only [List.length_cons, List.length_append]; omega)
        fun pos => ⟨_, ansiCEscape_hex (parseHexDigits_digits 0 (pos + 1) hds hend)⟩
      rw [AnsiItem.source, hsource]
      exact hescape
    | octal ds =>
      obtain ⟨hne, hds, hend⟩ := he
      have hend : ds.length = 3 ∨ ds.length < 3 ∧
          (Utf8.encode (ansiSource es) ++ '\'' :: after).head?.all
            (fun c => !isOctalDigit c) = true := by
        rw [← hrest, head?_all_bytes _ hmore]
        · exact hend
        · intro c hc
          rw [Bool.not_eq_true', Bool.eq_false_iff]
          intro hdigit
          have := isOctalDigit_ascii hdigit
          omega
      have hsource : Utf8.encode ('\\' :: ds) = '\\' :: ds := by
        apply Utf8.encode_of_ascii
        intro c hc
        rcases List.mem_cons.mp hc with rfl | hc
        · decide
        · exact isOctalDigit_ascii (List.all_eq_true.mp hds c hc)
      have hescape := ih.escape
        (ds ++ (Utf8.encode (ansiSource es) ++ '\'' :: after))
        [byteOf 8 (fun c => c.toNat - '0'.toNat) ds]
        (by simp only [List.length_append]; omega) fun pos => by
          refine ⟨pos + ds.length, ?_⟩
          have hdigits := parseOctalDigits_digits 0 pos hds hend
          cases ds with
          | nil => exact absurd rfl hne
          | cons d ds =>
            have hd := List.all_eq_true.mp hds d List.mem_cons_self
            have hother := (List.all_iff_forall_prop.mp (by decide) :
              ∀ c ∈ 'x' :: simpleEscapes.map Prod.fst, isOctalDigit c = false)
            have hnot : d ∉ 'x' :: simpleEscapes.map Prod.fst := fun hmem => by
              rw [hother d hmem] at hd
              cases hd
            rw [List.mem_cons, not_or] at hnot
            rw [List.cons_append] at hdigits ⊢
            rw [ansiCEscape_other hnot.2 hnot.1, if_pos hd, hdigits]
            rfl
      rw [AnsiItem.source, hsource]
      exact hescape
    | backslash c =>
      obtain ⟨hsimple, hx, hoctal⟩ := he
      have hplain : c ∉ ['\'', '\\'] := fun hmem => hsimple
        ((List.all_iff_forall_prop.mp (by decide) :
          ∀ d ∈ ['\'', '\\'], d ∈ simpleEscapes.map Prod.fst) c hmem)
      have hbytes := not_mem_of_mem_encodeChar (by decide) hplain
      have hfirst := not_mem_of_mem_encodeChar
        (by decide : ('x' :: simpleEscapes.map Prod.fst).all (·.toNat < 0x80) = true)
        (fun hmem => (List.mem_cons.mp hmem).elim hx hsimple)
      obtain ⟨b, bs, hchar⟩ := head_encodeChar c
      rw [hchar] at hbytes hfirst
      have hb := hfirst b List.mem_cons_self
      rw [List.mem_cons, not_or] at hb
      have hdigit : isOctalDigit b = false := by
        rw [Bool.eq_false_iff]
        intro hb
        have hsame : b = c := Utf8.eq_of_mem_encodeChar (isOctalDigit_ascii hb)
          (hchar ▸ List.mem_cons_self)
        rw [hsame, hoctal] at hb
        cases hb
      have hcopied := ih.copied bs fun d hd => hbytes d (.tail _ hd)
      have hescape := hcopied.escape (b :: (bs ++
          (Utf8.encode (ansiSource es) ++ '\'' :: after))) ['\\', b] (Nat.le_succ _)
        fun pos => ⟨pos + 1, by rw [ansiCEscape_other hb.2 hb.1, if_neg (by simp [hdigit])]⟩
      simpa [AnsiItem.source, AnsiItem.text, written_copied, hchar,
        Utf8.encodeChar_of_ascii (by decide : '\\'.toNat < 0x80)] using hescape

/-! ## 6. Words -/

/-- The loop of `parse_word_parts` makes that literal text of the bytes. -/
def ReadsWord (bytes text : List Char) : Prop :=
  ∀ n pos lit, bytes.length ≤ n →
    literalsOf (parseWordLoop n lit ⟨pos, bytes⟩).parts = lit ++ text

theorem readsWord_nil : ReadsWord [] [] := by
  intro n pos lit _
  have hparts : (parseWordLoop n lit ⟨pos, []⟩).parts = flush lit := by cases n <;> rfl
  rw [hparts, literalsOf_flush, List.append_nil]

/-- One `parse_word_part`. -/
theorem ReadsWord.step {bytes : List Char} (pushed : List Char) (h : ReadsWord more text)
    (hlen : more.length < bytes.length)
    (hstep : ∀ pos lit, (parseWordPart lit ⟨pos, bytes⟩).next.rest = more ∧
      literalsOf (parseWordPart lit ⟨pos, bytes⟩).parts ++ (parseWordPart lit ⟨pos, bytes⟩).lit =
        lit ++ pushed) :
    ReadsWord bytes (pushed ++ text) := by
  intro n pos lit hn
  cases n with
  | zero => omega
  | succ n =>
    cases bytes with
    | nil => cases hlen
    | cons b r =>
      obtain ⟨hnext, hpushed⟩ := hstep pos lit
      have hloop : (parseWordLoop (n + 1) lit ⟨pos, b :: r⟩).parts =
          (parseWordPart lit ⟨pos, b :: r⟩).parts ++ (parseWordLoop n
            (parseWordPart lit ⟨pos, b :: r⟩).lit (parseWordPart lit ⟨pos, b :: r⟩).next).parts := rfl
      have hmore := h n (parseWordPart lit ⟨pos, b :: r⟩).next.pos
        (parseWordPart lit ⟨pos, b :: r⟩).lit (by omega)
      rw [← hnext] at hmore
      rw [hloop, literalsOf_append, hmore, ← List.append_assoc, hpushed, List.append_assoc]

theorem parseWordPart_byte {b : Char} (hb : b ∉ ['\'', '"', '\\', '$', '`'])
    (hangle : b ∈ ['<', '>'] → more.head? ≠ some '(') (lit : List Char) (pos : Nat) :
    parseWordPart lit ⟨pos, b :: more⟩ = ⟨lit ++ [b], [], [], ⟨pos + 1, more⟩⟩ := by
  simp only [List.mem_cons, List.not_mem_nil, or_false, not_or] at hb hangle
  unfold parseWordPart
  dsimp only
  split
  · next heq => exact absurd (List.cons.inj heq).1 hb.1
  · next heq => exact absurd (List.cons.inj heq).1 hb.2.1
  · next heq => exact absurd (List.cons.inj heq).1 hb.2.2.1
  · next heq => exact absurd (List.cons.inj heq).1 hb.2.2.2.1
  · next heq => exact absurd (List.cons.inj heq).1 hb.2.2.2.2
  · next heq =>
    obtain ⟨rfl, rfl⟩ := List.cons.inj heq
    exact absurd rfl (hangle (Or.inl rfl))
  · next heq =>
    obtain ⟨rfl, rfl⟩ := List.cons.inj heq
    exact absurd rfl (hangle (Or.inr rfl))
  · next heq =>
    obtain ⟨rfl, rfl⟩ := List.cons.inj heq
    rfl
  · next heq => cases heq

theorem ReadsWord.byte {b : Char} (hb : b ∉ ['\'', '"', '\\', '$', '`'])
    (hangle : b ∈ ['<', '>'] → more.head? ≠ some '(') (h : ReadsWord more text) :
    ReadsWord (b :: more) (b :: text) := by
  refine h.step [b] (Nat.lt_succ_self _) ?_
  intro pos lit
  rw [parseWordPart_byte hb hangle]
  exact ⟨rfl, rfl⟩

/-- Bytes that mean nothing to the word parser. -/
theorem ReadsWord.copied (bs : List Char)
    (hbs : ∀ b ∈ bs, b ∉ ['\'', '"', '\\', '$', '`', '<', '>']) (h : ReadsWord more text) :
    ReadsWord (bs ++ more) (bs ++ text) := by
  induction bs with
  | nil => exact h
  | cons b bs ih =>
    have hb := hbs b List.mem_cons_self
    simp only [List.mem_cons, List.not_mem_nil, or_false, not_or] at hb
    refine (ih fun d hd => hbs d (.tail _ hd)).byte ?_ ?_
    · simp [hb]
    · intro hangle
      simp [hb] at hangle

/-- The bytes of a character after its first. -/
theorem tail_encodeChar {c b : Char} {bs : List Char} (h : Utf8.encodeChar c = b :: bs) :
    ∀ d ∈ bs, 0x80 ≤ d.toNat := by
  intro d hd
  by_contra hascii
  have hascii := Nat.lt_of_not_le hascii
  have hsame : d = c := Utf8.eq_of_mem_encodeChar hascii (h ▸ List.mem_cons_of_mem b hd)
  rw [← hsame, Utf8.encodeChar_of_ascii hascii] at h
  rw [← (List.cons.inj h).2] at hd
  cases hd

theorem ReadsWord.escaped (hc : c ≠ '\n') (h : ReadsWord more text) :
    ReadsWord ('\\' :: (Utf8.encodeChar c ++ more)) (Utf8.encodeChar c ++ text) := by
  obtain ⟨b, bs, hchar⟩ := head_encodeChar c
  have hb : b ≠ '\n' := by
    rintro rfl
    exact hc (Utf8.eq_of_mem_encodeChar (by decide) (hchar ▸ List.mem_cons_self)).symm
  have hcopied : ReadsWord (bs ++ more) (bs ++ text) := h.copied bs fun d hd hmem => by
    have := tail_encodeChar hchar d hd
    have := (List.all_iff_forall_prop.mp (by decide) :
      ∀ d ∈ ['\'', '"', '\\', '$', '`', '<', '>'], d.toNat < 0x80) d hmem
    omega
  rw [hchar]
  refine hcopied.step [b] (Nat.lt_succ_of_lt (Nat.lt_succ_self _)) ?_
  intro pos lit
  have hpart : parseWordPart lit ⟨pos, '\\' :: (b :: bs ++ more)⟩ =
      ⟨lit ++ [b], [], [], ⟨pos + 2, bs ++ more⟩⟩ := by
    have hescaped : parseWordPart lit ⟨pos, '\\' :: (b :: bs ++ more)⟩ =
        parseEscapedLiteral lit ⟨pos, '\\' :: b :: (bs ++ more)⟩ := rfl
    rw [hescaped]
    unfold parseEscapedLiteral
    dsimp only
    split
    · next heq => exact absurd (List.cons.inj (List.cons.inj heq).2).1 hb
    · next heq =>
      obtain ⟨rfl, rfl⟩ := List.cons.inj (List.cons.inj heq).2
      rfl
    · next hnot => exact absurd rfl (hnot _ _ _)
  rw [hpart]
  exact ⟨rfl, rfl⟩

theorem ReadsWord.continuation (h : ReadsWord more text) :
    ReadsWord ('\\' :: '\n' :: more) text := by
  refine h.step [] (Nat.lt_succ_of_lt (Nat.lt_succ_self _)) ?_
  intro pos lit
  exact ⟨rfl, (List.append_nil lit).symm⟩

/-- What `parse_dollar_part` does before anything but a quote. -/
theorem parseDollarPart_unquoted (hsingle : more.head? ≠ some '\'')
    (hdouble : more.head? ≠ some '"') (lit : List Char) (pos : Nat) :
    parseWordPart lit ⟨pos, '$' :: more⟩ =
      match parseDollar ⟨pos + 1, more⟩ with
      | some p => ⟨[], flush lit ++ [p.part], p.marks, p.next⟩
      | none => ⟨['$'], flush lit, [], ⟨pos + 1, more⟩⟩ := by
  have hdollar : parseWordPart lit ⟨pos, '$' :: more⟩ =
      parseDollarPart lit ⟨pos, '$' :: more⟩ := rfl
  rw [hdollar]
  unfold parseDollarPart
  dsimp only
  split
  · next heq =>
    rw [(List.cons.inj heq).2] at hsingle
    exact absurd rfl hsingle
  · next heq =>
    rw [(List.cons.inj heq).2] at hdouble
    exact absurd rfl hdouble
  · rfl

theorem ReadsWord.dollar (hlone : LoneDollar more) (hsingle : more.head? ≠ some '\'')
    (hdouble : more.head? ≠ some '"') (h : ReadsWord more text) :
    ReadsWord ('$' :: more) ('$' :: text) := by
  refine h.step ['$'] (Nat.lt_succ_self _) ?_
  intro pos lit
  rw [parseDollarPart_unquoted hsingle hdouble, parseDollar_lone hlone]
  exact ⟨rfl, by rw [literalsOf_flush]⟩

/-- A quoted text: one part, with that literal text. -/
theorem ReadsWord.quoted {bytes : List Char} (pushed : List Char) (h : ReadsWord more text)
    (hlen : more.length < bytes.length)
    (hquoted : ∀ pos lit, ∃ p marks pos', parseWordPart lit ⟨pos, bytes⟩ =
      ⟨[], flush lit ++ [p], marks, ⟨pos', more⟩⟩ ∧ literalOf p = pushed) :
    ReadsWord bytes (pushed ++ text) := by
  refine h.step pushed hlen ?_
  intro pos lit
  obtain ⟨p, marks, pos', hpart, hp⟩ := hquoted pos lit
  rw [hpart]
  exact ⟨rfl, by simp [hp]⟩

theorem ReadsWord.single {t : List Char} (ht : '\'' ∉ t) (h : ReadsWord more text) :
    ReadsWord ('\'' :: (t ++ '\'' :: more)) text := by
  refine h.quoted [] (by simp only [List.length_cons, List.length_append]; omega) ?_
  intro pos lit
  have hclosed := (parseSingleQuoted_closesAt ht (closes_of_bytes (pos + 1) t ['\''] more)).2
  rw [List.append_assoc, List.singleton_append] at hclosed
  obtain ⟨b, hb⟩ : ∃ b, parseSingleQuoted ⟨pos + 1, t ++ '\'' :: more⟩ = b := ⟨_, rfl⟩
  rw [hb] at hclosed
  have hpart : parseWordPart lit ⟨pos, '\'' :: (t ++ '\'' :: more)⟩ =
      ⟨[], flush lit ++ [.singleQuoted (parseSingleQuoted ⟨pos + 1, t ++ '\'' :: more⟩).content],
        (parseSingleQuoted ⟨pos + 1, t ++ '\'' :: more⟩).marks .singleQuoted
          ⟨pos + 1, t ++ '\'' :: more⟩ [],
        (parseSingleQuoted ⟨pos + 1, t ++ '\'' :: more⟩).next⟩ := rfl
  rw [hpart, hb, hclosed]
  exact ⟨_, _, _, rfl, rfl⟩

/-- A double-quoted text after its opening quote. -/
theorem doubleQuotedStep_items (hwell : QuotedWellFormed qs) (lit : List Char) (pos : Nat) :
    ∃ p marks pos', doubleQuotedStep lit ⟨pos, Utf8.encode (quotedSource qs) ++ '"' :: more⟩ =
      ⟨[], flush lit ++ [p], marks, ⟨pos', more⟩⟩ ∧
        literalOf p = (qs.flatMap QuotedItem.text).flatMap written := by
  obtain ⟨htext, hrest⟩ := readsQuoted_items hwell more _ pos [] (Nat.le_refl _)
  obtain ⟨c, hc⟩ : ∃ c : Text, c = ⟨pos, Utf8.encode (quotedSource qs) ++ '"' :: more⟩ := ⟨_, rfl⟩
  obtain ⟨b, hb⟩ : ∃ b, parseDoubleQuoted c = b := ⟨_, rfl⟩
  have hloop : doubleQuotedLoop (Utf8.encode (quotedSource qs) ++ '"' :: more).length []
      ⟨pos, Utf8.encode (quotedSource qs) ++ '"' :: more⟩ = b := by
    rw [← hb, hc]
    rfl
  rw [hloop] at htext hrest
  rw [← hc, doubleQuotedStep, hb]
  refine ⟨.doubleQuoted b.content.parts, b.marks .doubleQuoted c b.content.marks, b.next.pos, ?_,
    ?_⟩
  · rw [← hrest]
  · rw [literalOf_doubleQuoted, htext, List.nil_append]

theorem ReadsWord.double (hwell : QuotedWellFormed qs) (h : ReadsWord more text) :
    ReadsWord ('"' :: (Utf8.encode (quotedSource qs) ++ '"' :: more))
      ((qs.flatMap QuotedItem.text).flatMap written ++ text) := by
  refine h.quoted _ (by simp only [List.length_cons, List.length_append]; omega) ?_
  intro pos lit
  exact doubleQuotedStep_items hwell lit (pos + 1)

theorem ReadsWord.localized (hwell : QuotedWellFormed qs) (h : ReadsWord more text) :
    ReadsWord ('$' :: '"' :: (Utf8.encode (quotedSource qs) ++ '"' :: more))
      ((qs.flatMap QuotedItem.text).flatMap written ++ text) := by
  refine h.quoted _ (by simp only [List.length_cons, List.length_append]; omega) ?_
  intro pos lit
  exact doubleQuotedStep_items hwell lit (pos + 2)

theorem ReadsWord.ansi {es : List AnsiItem} (hwell : AnsiWellFormed es)
    (h : ReadsWord more text) :
    ReadsWord ('$' :: '\'' :: (Utf8.encode (ansiSource es) ++ '\'' :: more))
      ((es.flatMap AnsiItem.text).flatMap written ++ text) := by
  refine h.quoted _ (by simp only [List.length_cons, List.length_append]; omega) ?_
  intro pos lit
  obtain ⟨htext, hrest⟩ := readsAnsi_items hwell more _ (pos + 2) [] (Nat.le_refl _)
  obtain ⟨c, hc⟩ : ∃ c : Text, c = ⟨pos + 2, Utf8.encode (ansiSource es) ++ '\'' :: more⟩ :=
    ⟨_, rfl⟩
  obtain ⟨b, hb⟩ : ∃ b, parseAnsiCQuoted c = b := ⟨_, rfl⟩
  have hloop : ansiCLoop [] (Utf8.encode (ansiSource es) ++ '\'' :: more).length
      ⟨pos + 2, Utf8.encode (ansiSource es) ++ '\'' :: more⟩ = b := by
    rw [← hb, hc]
    rfl
  rw [hloop] at htext hrest
  have hpart : parseWordPart lit
      ⟨pos, '$' :: '\'' :: (Utf8.encode (ansiSource es) ++ '\'' :: more)⟩ =
      ⟨[], flush lit ++ [.literal b.content], b.marks .singleQuoted c [], b.next⟩ := by
    rw [← hb, hc]
    rfl
  refine ⟨.literal b.content, b.marks .singleQuoted c [], b.next.pos, ?_, ?_⟩
  · rw [hpart, ← hrest]
  · rw [literalOf_literal, htext, List.nil_append]

theorem ReadsWord.reference (hwell : r.WellFormed more)
    (h : ReadsWord more text) : ReadsWord (Utf8.encode r.source ++ more) text := by
  have hne : Utf8.encode r.source ≠ [] := by
    cases r <;> exact List.cons_ne_nil _ _
  have hlen : more.length < (Utf8.encode r.source ++ more).length := by
    rw [List.length_append]
    have := List.length_pos_iff.mpr hne
    omega
  refine h.quoted [] hlen ?_
  intro pos lit
  by_cases hticks : ∃ v, r = .backticks v
  · obtain ⟨v, rfl⟩ := hticks
    have hsource : Utf8.encode (Reference.backticks v).source ++ more =
        '`' :: (Utf8.encode v ++ ['`'] ++ more) := by
      rw [Reference.source, encode_body (by decide),
        List.cons_append]
    obtain ⟨c, hc⟩ : ∃ c : Text, c = ⟨pos + 1, Utf8.encode v ++ ['`'] ++ more⟩ := ⟨_, rfl⟩
    have hclosed := (parseBacktick_closesAt hwell
      (closes_of_bytes (pos + 1) (Utf8.encode v) ['`'] more)).2
    rw [← hc] at hclosed
    have hpart : parseWordPart lit ⟨pos, '`' :: (Utf8.encode v ++ ['`'] ++ more)⟩ =
        ⟨[], flush lit ++ [.commandSubstitution (Utf8.encode (parseBacktick c).content)],
          (parseBacktick c).marks .backtick c [], (parseBacktick c).next⟩ := by
      rw [hc]
      rfl
    rw [hsource, hpart, hclosed]
    exact ⟨_, _, _, rfl, rfl⟩
  · have hsource : ∃ b t, r.source = '$' :: b :: t ∧ b.toNat < 0x80 ∧ b ≠ '\'' ∧ b ≠ '"' := by
      cases r with
      | backticks v => exact absurd ⟨v, rfl⟩ hticks
      | name n =>
        obtain ⟨hstart, hbytes, -⟩ := hwell
        cases n with
        | nil => cases hstart
        | cons b n =>
          have hb : isNameByte b = true := List.all_eq_true.mp hbytes b List.mem_cons_self
          refine ⟨b, n, rfl, isNameByte_ascii hb, ?_, ?_⟩
          · rintro rfl
            cases hb
          · rintro rfl
            cases hb
      | special b =>
        have hb : isSpecialParam b = true := hwell
        refine ⟨b, [], rfl, (isSpecialParam_apart hb).1, ?_, ?_⟩
        · rintro rfl
          cases hb
        · rintro rfl
          cases hb
      | braces v => exact ⟨'{', _, rfl, by decide, by decide, by decide⟩
      | command v => exact ⟨'(', _, rfl, by decide, by decide, by decide⟩
      | arithmetic v => exact ⟨'(', _, rfl, by decide, by decide, by decide⟩
    obtain ⟨b, t, ht, hascii, hsingle, hdouble⟩ := hsource
    obtain ⟨p, hp, hpart, rfl⟩ := parseDollar_reference hwell ht (pos + 1)
    have hbytes : Utf8.encode (b :: t) = b :: Utf8.encode t := by
      rw [Utf8.encode_cons, Utf8.encodeChar_of_ascii hascii]
      rfl
    rw [ht, Utf8.encode_cons, Utf8.encodeChar_of_ascii (by decide), List.singleton_append,
      List.cons_append, parseDollarPart_unquoted ?_ ?_, hp]
    · exact ⟨p.part, p.marks, p.next.pos, rfl, hpart⟩
    · rw [hbytes]
      exact fun heq => hsingle (Option.some.inj heq)
    · rw [hbytes]
      exact fun heq => hdouble (Option.some.inj heq)

theorem ReadsWord.process {input : Bool} {v : List Char} (hwell : commandBalanced v = true)
    (h : ReadsWord more text) :
    ReadsWord ((if input then '<' else '>') :: '(' :: (v ++ ')' :: more)) text := by
  refine h.quoted [] (by simp only [List.length_cons, List.length_append]; omega) ?_
  intro pos lit
  obtain ⟨c, hc⟩ : ∃ c : Text, c = ⟨pos + 2, v ++ ')' :: more⟩ := ⟨_, rfl⟩
  have hcloses : Closes c [')'] ⟨pos + 2 + v.length + 1, more⟩ v := by
    rw [hc]
    exact ⟨by simp, rfl⟩
  have hclosed := ((parseCommand_closesAt hcloses).mpr hwell).2
  have hpart : ∃ p, literalOf p = [] ∧
      parseWordPart lit ⟨pos, (if input then '<' else '>') :: '(' :: (v ++ ')' :: more)⟩ =
        ⟨[], flush lit ++ [p], (parseBody cmdSubstLexeme c).marks .process c [],
          (parseBody cmdSubstLexeme c).next⟩ := by
    rw [hc]
    cases input
    · exact ⟨.processSubstOut _, rfl, rfl⟩
    · exact ⟨.processSubstIn _, rfl, rfl⟩
  obtain ⟨p, hp, hpart⟩ := hpart
  rw [hpart, hclosed]
  exact ⟨_, _, _, rfl, hp⟩

/-- A backslash at the end. -/
theorem ReadsWord.backslash (h : ReadsWord [] text) : ReadsWord ['\\'] text := by
  refine h.step [] (Nat.lt_succ_self 0) ?_
  intro _ lit
  exact ⟨rfl, (List.append_nil lit).symm⟩

/-- A word. -/
theorem readsWord_segments {ss : List Segment} (hwell : WellFormed ss) :
    ReadsWord (Utf8.encode (sourceOf ss)) ((textOf ss).flatMap written) := by
  induction ss with
  | nil => exact readsWord_nil
  | cons s ss ih =>
    obtain ⟨hs, hwell⟩ := hwell
    have ih := ih hwell
    have hsource : Utf8.encode (sourceOf (s :: ss)) =
        Utf8.encode s.source ++ Utf8.encode (sourceOf ss) := by
      rw [sourceOf, List.flatMap_cons, Utf8.encode_append]
      rfl
    have htext : (textOf (s :: ss)).flatMap written =
        s.text.flatMap written ++ (textOf ss).flatMap written := by
      rw [textOf, List.flatMap_cons, List.flatMap_append]
      rfl
    rw [hsource, htext]
    cases s with
    | char c =>
      obtain ⟨hc, hangle⟩ := hs
      have hchar : Utf8.encode (Segment.char c).source = Utf8.encodeChar c := List.append_nil _
      have hwritten : (Segment.char c).text.flatMap written = Utf8.encodeChar c :=
        List.append_nil _
      rw [hchar, hwritten]
      by_cases hascii : c.toNat < 0x80
      · rw [Utf8.encodeChar_of_ascii hascii]
        exact ih.byte hc fun hmem =>
          (Utf8.head?_encode (by decide) (sourceOf ss)).not.mpr (hangle hmem)
      · apply ih.copied
        apply not_mem_of_mem_encodeChar (by decide)
        intro hmem
        have hspecial := (List.all_iff_forall_prop.mp (by decide) :
          ∀ d ∈ ['\'', '"', '\\', '$', '`', '<', '>'], d.toNat < 0x80)
        exact hascii (hspecial c hmem)
    | escaped c =>
      have hchar : Utf8.encode (Segment.escaped c).source = '\\' :: Utf8.encodeChar c := by
        rw [Segment.source, Utf8.encode_cons, Utf8.encodeChar_of_ascii (by decide),
          List.singleton_append]
        exact congrArg _ (List.append_nil _)
      have hwritten : (Segment.escaped c).text.flatMap written = Utf8.encodeChar c :=
        List.append_nil _
      rw [hchar, hwritten]
      exact ih.escaped hs
    | continuation => exact ih.continuation
    | backslash =>
      have hrest : sourceOf ss = [] := hs
      rw [hrest] at ih ⊢
      exact ih.backslash
    | dollar =>
      obtain ⟨hlone, hsingle, hdouble⟩ := hs
      have hlone := LoneDollar.bytes [] hlone (Or.inr rfl)
      rw [List.append_nil] at hlone
      exact ih.dollar hlone ((Utf8.head?_encode (by decide) _).not.mpr hsingle)
        ((Utf8.head?_encode (by decide) _).not.mpr hdouble)
    | single t =>
      have ht : '\'' ∉ Utf8.encode t := fun hmem =>
        hs (Utf8.mem_of_mem_encode (by decide) hmem)
      rw [Segment.source, encode_body (by decide),
        List.cons_append, List.append_assoc]
      exact ih.single ht
    | double qs =>
      rw [Segment.source, encode_body (by decide),
        List.cons_append, List.append_assoc]
      exact ih.double hs
    | localized qs =>
      rw [Segment.source, Utf8.encode_cons, encode_body (by decide),
        Utf8.encodeChar_of_ascii (by decide), List.singleton_append, List.cons_append,
        List.cons_append, List.append_assoc]
      exact ih.localized hs
    | ansi es =>
      rw [Segment.source, Utf8.encode_cons, encode_body (by decide),
        Utf8.encodeChar_of_ascii (by decide), List.singleton_append, List.cons_append,
        List.cons_append, List.append_assoc]
      exact ih.ansi hs
    | reference r =>
      have hreference := Reference.WellFormed.bytes [] hs (Or.inr rfl)
      rw [List.append_nil] at hreference
      exact ih.reference hreference
    | process input v =>
      have hopen : Utf8.encodeChar (if input then '<' else '>') = [if input then '<' else '>'] := by
        cases input
        · exact Utf8.encodeChar_of_ascii (by decide)
        · exact Utf8.encodeChar_of_ascii (by decide)
      rw [Segment.source, Utf8.encode_cons, encode_body (by decide),
        hopen, List.singleton_append, List.cons_append, List.cons_append, List.append_assoc]
      exact ih.process hs

end

/-! ## 7. Literal text -/

theorem written_of_ascii {e : Char × Bool} (he : e.2 = true → e.1.toNat < 0x80) :
    written e = [e.1] := by
  unfold written
  split
  · next hcopied => exact Utf8.encodeChar_of_ascii (he hcopied)
  · rfl

theorem length_le_written (t : Tagged) : t.length ≤ (t.flatMap written).length := by
  induction t with
  | nil => exact Nat.le_refl _
  | cons e t ih =>
    have he : 1 ≤ (written e).length := by
      unfold written
      split
      · exact List.length_pos_iff.mpr (Utf8.encodeChar_ne_nil e.1)
      · exact Nat.le_refl 1
    rw [List.length_cons, List.flatMap_cons, List.length_append]
    omega

/-- Literal text is what it is meant to be if what is copied is ASCII. -/
theorem flatMap_written_iff (t : Tagged) :
    t.flatMap written = t.map Prod.fst ↔ ∀ e ∈ t, e.2 = true → e.1.toNat < 0x80 := by
  induction t with
  | nil => simp
  | cons e t ih =>
    rw [List.flatMap_cons, List.map_cons, List.forall_mem_cons, ← ih]
    constructor
    · intro h
      have hshort : (written e).length ≤ 1 := by
        have hlength := congrArg List.length h
        have hle := length_le_written t
        rw [List.length_append, List.length_cons, List.length_map] at hlength
        omega
      have hcopied : e.2 = true → e.1.toNat < 0x80 := by
        intro he
        by_contra hchar
        have hbytes := Utf8.one_lt_length_encodeChar (Nat.le_of_not_lt hchar)
        rw [written, if_pos he] at hshort
        omega
      rw [written_of_ascii hcopied, List.singleton_append, List.cons.injEq] at h
      exact ⟨hcopied, h.2⟩
    · rintro ⟨he, ht⟩
      rw [written_of_ascii he, ht, List.singleton_append]

/-- A text without what the word parser looks for is one literal, of its bytes. -/
theorem wordOf_plain {t : List Char}
    (ht : ∀ c ∈ t, c ∉ ['\'', '"', '\\', '$', '`', '<', '>']) :
    (Parser.wordOf (Utf8.encode t)).parts = flush (Utf8.encode t) := by
  have hbytes : ∀ b ∈ Utf8.encode t, b ∉ ['\'', '"', '\\', '$', '`', '<', '>'] := by
    intro b hb hmem
    have hascii := (List.all_iff_forall_prop.mp (by decide) :
      ∀ d ∈ ['\'', '"', '\\', '$', '`', '<', '>'], d.toNat < 0x80) b hmem
    exact ht b (Utf8.mem_of_mem_encode hascii hb) hmem
  have hloop : ∀ (bs : List Char), (∀ b ∈ bs, b ∉ ['\'', '"', '\\', '$', '`', '<', '>']) →
      ∀ lit pos, (parseWordLoop bs.length lit ⟨pos, bs⟩).parts = flush (lit ++ bs) := by
    intro bs hbs
    induction bs with
    | nil =>
      intro lit pos
      rw [List.append_nil]
      rfl
    | cons b bs ih =>
      intro lit pos
      have hb := hbs b List.mem_cons_self
      simp only [List.mem_cons, List.not_mem_nil, or_false, not_or] at hb
      have hpart : parseWordPart lit ⟨pos, b :: bs⟩ = ⟨lit ++ [b], [], [], ⟨pos + 1, bs⟩⟩ :=
        parseWordPart_byte (by simp [hb]) (by simp [hb]) lit pos
      have hstep : (parseWordLoop (b :: bs).length lit ⟨pos, b :: bs⟩).parts =
          (parseWordPart lit ⟨pos, b :: bs⟩).parts ++ (parseWordLoop bs.length
            (parseWordPart lit ⟨pos, b :: bs⟩).lit
              (parseWordPart lit ⟨pos, b :: bs⟩).next).parts := rfl
      rw [hstep, hpart, List.nil_append, ih fun d hd => hbs d (.tail _ hd)]
      rw [List.append_assoc, List.singleton_append]
  have hparts : (Parser.wordOf (Utf8.encode t)).parts =
      Parser.decodeParts (flush (Utf8.encode t)) := by
    rw [Parser.wordOf, parseWordParts, hloop _ hbytes, List.nil_append]
  rw [hparts, flush]
  split
  · rfl
  · rfl

theorem flush_literal_iff (bytes t : List Char) :
    flush bytes = [.literal t] ↔ t ≠ [] ∧ bytes = t := by
  unfold flush
  split
  · next h =>
    subst h
    constructor
    · intro heq
      cases heq
    · rintro ⟨hne, rfl⟩
      exact absurd rfl hne
  · next h =>
    constructor
    · intro heq
      obtain rfl : bytes = t := by simpa using heq
      exact ⟨h, rfl⟩
    · rintro ⟨-, rfl⟩
      rfl

/-- A word's literal text is kept if and only if what of it is copied is ASCII. -/
theorem literal_text_kept_iff (t : List Char)
    (ht : ∀ c ∈ t, c ∉ ['\'', '"', '\\', '$', '`', '<', '>']) (ss : List Segment)
    (hwell : WellFormed ss) :
    ((Parser.wordOf (Utf8.encode t)).parts = [.literal t] ↔
      t ≠ [] ∧ ∀ c ∈ t, c.toNat < 0x80) ∧
    (literalsOf (Parser.wordOf (Utf8.encode (sourceOf ss))).parts = (textOf ss).map Prod.fst ↔
      ∀ e ∈ textOf ss, e.2 = true → e.1.toNat < 0x80) := by
  constructor
  · rw [wordOf_plain ht, flush_literal_iff]
    refine and_congr_right fun _ => ?_
    constructor
    · exact Utf8.ascii_of_encode
    · exact Utf8.encode_of_ascii
  · have hread := readsWord_segments hwell _ 0 [] (Nat.le_refl _)
    have hparts : literalsOf (Parser.wordOf (Utf8.encode (sourceOf ss))).parts =
        (textOf ss).flatMap written := by
      rw [Parser.wordOf, literalsOf_decodeParts]
      exact hread
    rw [hparts, flatMap_written_iff]

/-- `ok` and `a"é$x"$'\x41'`. -/
theorem literal_text_of_words :
    (Parser.wordOf (Utf8.encode ['o', 'k'])).parts = [.literal ['o', 'k']] ∧
    literalsOf (Parser.wordOf (Utf8.encode (sourceOf [.char 'a',
      .double [.char 'é', .reference (.name ['x'])], .ansi [.hex ['4', '1']]]))).parts ≠
        ['a', 'é', 'A'] := by
  have hplain : ∀ c ∈ ['o', 'k'], c ∉ ['\'', '"', '\\', '$', '`', '<', '>'] :=
    List.all_iff_forall_prop.mp (by decide)
  have hwell : WellFormed [.char 'a', .double [.char 'é', .reference (.name ['x'])],
      .ansi [.hex ['4', '1']]] := by
    have hchar : 'é' ∉ ['"', '\\', '$', '`'] := by decide
    refine ⟨⟨by decide, fun hmem => absurd hmem (by decide)⟩,
      ⟨hchar, ⟨?_, ?_, ?_⟩, trivial⟩, ⟨⟨?_, Or.inl rfl⟩, trivial⟩, trivial⟩
    all_goals decide
  obtain ⟨htext, hword⟩ := literal_text_kept_iff ['o', 'k'] hplain _ hwell
  constructor
  · refine htext.mpr ⟨List.cons_ne_nil _ _, ?_⟩
    exact List.all_iff_forall_prop.mp (by decide)
  · intro heq
    have hascii := hword.mp heq ('é', true) (by decide) rfl
    exact absurd hascii (by decide)

/-- `é`, bare and in double quotes. -/
theorem accent_is_two_characters :
    (Parser.wordOf (Utf8.encode ['é'])).parts = [.literal ['Ã', '©']] ∧
    literalsOf (Parser.wordOf (Utf8.encode ['"', 'é', '"'])).parts = ['Ã', '©'] ∧
    ['Ã', '©'] ≠ ['é'] :=
  ⟨rfl, rfl, by decide⟩

end Wasmsh.WordTexts

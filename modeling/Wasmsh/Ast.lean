import Wasmsh.Library.Scanning

/-!
# Words and regions

The part of `wasmsh-ast` that the lexer and the word parser share: source spans and
the parts of a word.  A source text is a list of bytes, each written as the
character of the same code, which is what the Rust code itself does when it moves
a byte into a part (`bytes[*pos] as char`); a list index is a byte offset.

Lexer and word parser both decide where a quoted string or a substitution ends.
Neither records it, so the models carry a log beside their results: a `Mark` where
a region is opened and one where it is closed, in the order in which the scanner
meets them.
-/

namespace Wasmsh

open Scanning

/-- A source text from some byte offset on. -/
abbrev Text := Cursor Char

/-- `wasmsh_ast::Span`: byte offsets of a piece of source. -/
structure Span where
  start : Nat
  stop : Nat
  deriving DecidableEq, Repr

/-- `wasmsh_ast::WordPart`, as far as `parse_word_parts` builds it. -/
inductive WordPart where
  | literal (text : List Char)
  | singleQuoted (text : List Char)
  | doubleQuoted (parts : List WordPart)
  | parameter (name : List Char)
  | commandSubstitution (inner : List Char)
  | arithmetic (expr : List Char)
  | processSubstIn (inner : List Char)
  | processSubstOut (inner : List Char)
  deriving Repr

/-- The regions whose extent both scanners decide. -/
inductive Region where
  | singleQuoted
  | doubleQuoted
  | backtick
  | command
  | arithmetic
  | brace
  | process
  deriving DecidableEq, Repr

/-- One entry of a scanner's log.  `opened k p`: the first byte inside a region is
    at offset `p`; `closed k p`: the closing delimiter of the region ends at `p`. -/
inductive Mark where
  | opened (region : Region) (offset : Nat)
  | closed (region : Region) (offset : Nat)
  deriving DecidableEq, Repr

/-- The offset a mark speaks about. -/
def Mark.offset : Mark → Nat
  | opened _ p => p
  | closed _ p => p

/-- Every mark of the log lies after the offset `p`. -/
def MarksAfter (p : Nat) (marks : List Mark) : Prop := ∀ m ∈ marks, p < m.offset

@[simp] theorem marksAfter_nil (p : Nat) : MarksAfter p [] := by simp [MarksAfter]

@[simp] theorem marksAfter_cons (p : Nat) (m : Mark) (ms : List Mark) :
    MarksAfter p (m :: ms) ↔ p < m.offset ∧ MarksAfter p ms := by simp [MarksAfter]

@[simp] theorem marksAfter_append (p : Nat) (ms ms' : List Mark) :
    MarksAfter p (ms ++ ms') ↔ MarksAfter p ms ∧ MarksAfter p ms' := by
  simp [MarksAfter, or_imp, forall_and]

theorem MarksAfter.mono {p q : Nat} {ms : List Mark} (h : MarksAfter q ms) (hpq : p ≤ q) :
    MarksAfter p ms := fun m hm => Nat.lt_of_le_of_lt hpq (h m hm)

/-- The log of a region that is opened and closed with nothing recorded inside. -/
def Region.marks (k : Region) (c c' : Text) : List Mark :=
  [.opened k c.pos, .closed k c'.pos]

theorem Region.marks_after (k : Region) {p : Nat} {c c' : Text} (hp : p < c.pos)
    (h : c.Reaches c') : MarksAfter p (k.marks c c') := by
  have hle := h.pos_le
  simp only [Region.marks, marksAfter_cons, marksAfter_nil, Mark.offset, and_true]
  exact ⟨hp, Nat.lt_of_lt_of_le hp hle⟩

/-- The inside of a backtick region: no backtick but after a backslash, and no
    backslash left alone at the end. -/
def backtickBody : List Char → Bool
  | [] => true
  | '`' :: _ => false
  | '\\' :: _ :: v => backtickBody v
  | ['\\'] => false
  | _ :: v => backtickBody v

/-- `is_special_param`, the same in `wasmsh-lex` and `word_parser`. -/
def isSpecialParam (b : Char) : Bool :=
  ['?', '!', '#', '$', '@', '*', '-'].contains b || b.isDigit

/-- The first byte of a parameter name. -/
def isNameStart (b : Char) : Bool := b.isAlpha || b == '_'

theorem isAlpha_eq (c : Char) : c.isAlpha = (decide (65 ≤ c.val ∧ c.val ≤ 90) ||
    (decide (97 ≤ c.val) && decide (c.val ≤ 122))) := rfl

theorem not_isDigit_of_isNameStart {b : Char} (h : isNameStart b = true) : b.isDigit = false := by
  by_contra hdigit
  rw [Bool.not_eq_false] at hdigit
  simp only [isNameStart, isAlpha_eq, Char.isDigit, Bool.or_eq_true, Bool.and_eq_true,
    decide_eq_true_eq, beq_iff_eq, ge_iff_le] at hdigit h
  rcases h with (h | h) | rfl
  · exact absurd (UInt32.le_trans h.1 hdigit.2) (by decide)
  · exact absurd (UInt32.le_trans h.1 hdigit.2) (by decide)
  · exact absurd hdigit.2 (by decide)

/-- A later byte of a parameter name. -/
def isNameByte (b : Char) : Bool := b.isAlphanum || b == '_'

theorem isNameByte_of_isNameStart {b : Char} (h : isNameStart b = true) :
    isNameByte b = true := by
  simp only [isNameStart, isNameByte, Char.isAlphanum, Bool.or_eq_true] at h ⊢
  tauto

end Wasmsh

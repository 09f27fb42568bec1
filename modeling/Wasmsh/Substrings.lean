import Mathlib.Data.List.DropRight
import Wasmsh.ArithValues
import Wasmsh.Parameters

/-!
# Substrings and lengths

`${v:off}`, `${v: -off}` and `${v:off:len}` give the characters between two places of a
value, and `${#v}` the number of its bytes.  The offset and the length are added as `i64`
before they are clipped to the value, so a length near the limit panics behind any offset
but the first.
-/

namespace Wasmsh.Params

open Braces Expand
open Utf8 (size)

/-! ## 1. Numbers in a text -/

theorem trim_split (t : List Char) :
    ∃ blanks, (∀ c ∈ blanks, isWhitespace c = true) ∧
      t.dropWhile isWhitespace = trim t ++ blanks := by
  refine ⟨((t.dropWhile isWhitespace).reverse.takeWhile isWhitespace).reverse, ?_, ?_⟩
  · intro c hc
    exact List.mem_takeWhile_imp (List.mem_reverse.mp hc)
  · rw [trim, ← List.reverse_append, List.takeWhile_append_dropWhile, List.reverse_reverse]

/-- An offset as it stands after the colon: a minus sign has a blank before it, and there is
    no plus sign. -/
structure IsOffset (t : List Char) (off : Int) : Prop where
  parsed : parseI64 (trim t) = some off
  minus : t.head? ≠ some '-'
  plus : (t.dropWhile isWhitespace).head? ≠ some '+'

/-- A text that `try_expand_substring` takes as an offset, whether or not it fits an `i64`. -/
structure ReadsOffset (t : List Char) : Prop where
  shape : ∃ c cs, t.dropWhile isWhitespace = c :: cs ∧ (c.isDigit = true ∨ c = '-') ∧
    ∀ b ∈ t, b = c ∨ b.isDigit = true ∨ isWhitespace b = true
  minus : t.head? ≠ some '-'

/-- The length with its colon. -/
def lengthPart : Option (List Char) → List Char
  | some t => ':' :: t
  | none => []

section

variable {t : List Char} {off : Int}

/-- A text that is parsed as a number, after its blanks. -/
theorem parsed_shape (h : parseI64 (trim t) = some off) : ∃ c cs,
    t.dropWhile isWhitespace = c :: cs ∧ (c = '-' ∨ c = '+' ∨ c.isDigit = true) ∧
      ∀ b ∈ t, b = c ∨ b.isDigit = true ∨ isWhitespace b = true := by
  obtain ⟨c, cs, hcore, hc, hcs⟩ := chars_of_parseI64 h
  obtain ⟨blanks, hblanks, hsplit⟩ := trim_split t
  rw [hcore] at hsplit
  refine ⟨c, cs ++ blanks, hsplit, hc, ?_⟩
  intro b hb
  rw [← List.takeWhile_append_dropWhile (p := isWhitespace) (l := t), hsplit] at hb
  rcases List.mem_append.mp hb with hb | hb
  · exact .inr (.inr (List.mem_takeWhile_imp hb))
  · rcases List.mem_append.mp hb with hb | hb
    · rcases List.mem_cons.mp hb with rfl | hb
      · exact .inl rfl
      · exact .inr (.inl (hcs b hb))
    · exact .inr (.inr (hblanks b hb))

theorem not_mem_parsed (h : parseI64 (trim t) = some off) : ']' ∉ t := by
  obtain ⟨c, cs, -, hc, hall⟩ := parsed_shape h
  intro hmem
  rcases hall _ hmem with rfl | hd | hw
  · rcases hc with hc | hc | hc
    · revert hc; decide
    · revert hc; decide
    · revert hc; decide
  · revert hd; decide
  · revert hw; decide

theorem IsOffset.reads (h : IsOffset t off) : ReadsOffset t := by
  obtain ⟨c, cs, hdrop, hc, hall⟩ := parsed_shape h.parsed
  refine ⟨⟨c, cs, hdrop, ?_, hall⟩, h.minus⟩
  have hplus := h.plus
  rw [hdrop] at hplus
  rcases hc with rfl | rfl | hd
  · exact .inr rfl
  · exact absurd rfl hplus
  · exact .inl hd

/-- The first character that is no blank is the offset's. -/
theorem dropWhile_offset (h : ReadsOffset t) (more : List Char) :
    (t ++ more).dropWhile isWhitespace = t.dropWhile isWhitespace ++ more := by
  obtain ⟨c, cs, hdrop, -, -⟩ := h.shape
  rw [List.dropWhile_append, if_neg]
  rw [hdrop]
  exact Bool.false_ne_true

theorem not_mem_offset (h : ReadsOffset t) {d : Char} (hminus : d ≠ '-')
    (hdigit : d.isDigit = false) (hblank : isWhitespace d = false) : d ∉ t := by
  obtain ⟨c, cs, -, hc, hall⟩ := h.shape
  intro hmem
  rcases hall d hmem with rfl | hd | hw
  · rcases hc with hc | rfl
    · rw [hc] at hdigit; cases hdigit
    · exact hminus rfl
  · rw [hd] at hdigit; cases hdigit
  · rw [hw] at hblank; cases hblank

theorem head?_offset (h : ReadsOffset t) (more : List Char) {d : Char}
    (hd : d ∈ ['-', '=', '+', '?']) : (t ++ more).head? ≠ some d := by
  obtain ⟨c, cs, hdrop, hc, hall⟩ := h.shape
  cases t with
  | nil => cases hdrop
  | cons b bs =>
    intro heq
    obtain rfl : b = d := Option.some.inj heq
    rcases List.mem_cons.mp hd with rfl | hd
    · exact h.minus rfl
    · obtain ⟨hminus, hdigit, hblank⟩ :
          b ≠ '-' ∧ b.isDigit = false ∧ isWhitespace b = false :=
        (List.all_iff_forall_prop.mp (by decide) :
          ∀ d ∈ ['=', '+', '?'], d ≠ '-' ∧ d.isDigit = false ∧ isWhitespace d = false) b hd
      exact not_mem_offset h hminus hdigit hblank List.mem_cons_self

theorem trim_dropWhile (t : List Char) : trim (t.dropWhile isWhitespace) = trim t := by
  rw [trim, trim, List.dropWhile_idempotent]

/-- What `try_expand_substring` reads of a name with an offset and a length. -/
theorem tryExpandSubstring_name {v : List Char} (hv : isValidIdentifier v = true)
    (h : ReadsOffset t) (len : Option (List Char)) (s : ShellState) {value : String}
    (hvalue : s.getVar (String.ofList v) = some value) :
    tryExpandSubstring (v ++ ':' :: (t ++ lengthPart len)) s =
      .ofResult (substring value.toList (t.dropWhile isWhitespace) len) := by
  have hname : ∀ b, isNameByte b = true → (b != ':') = true := fun b => bne_of_name (by decide)
  have hcolon : ':' ∉ t.dropWhile isWhitespace := fun hmem =>
    not_mem_offset h (by decide) (by decide) (by decide) (List.dropWhile_subset _ hmem)
  have hbne : ∀ b ∈ t.dropWhile isWhitespace, (b != ':') = true := by
    intro b hb
    rw [bne_iff_ne]
    rintro rfl
    exact hcolon hb
  have hops : (['-', '=', '+', '?'].any fun c => (t ++ lengthPart len).head? == some c) = false := by
    rw [List.any_eq_false]
    intro d hd heq
    exact head?_offset h _ hd (beq_iff_eq.mp heq)
  obtain ⟨c, cs, hdrop, hc, -⟩ := h.shape
  have hnumeric : ((t.dropWhile isWhitespace ++ lengthPart len).head?.any Char.isDigit ||
      ((t.dropWhile isWhitespace ++ lengthPart len).length != (t ++ lengthPart len).length &&
        (t.dropWhile isWhitespace ++ lengthPart len).head? == some '-')) = true := by
    rcases hc with hc | rfl
    · rw [hdrop, List.cons_append, List.head?_cons, Option.any_some, hc, Bool.true_or]
    · have hshort : t.dropWhile isWhitespace ≠ t := by
        intro heq
        rw [heq] at hdrop
        exact h.minus (by rw [hdrop]; rfl)
      have hlen : (t.dropWhile isWhitespace).length ≠ t.length := fun heq =>
        hshort ((List.dropWhile_suffix _).eq_of_length heq)
      have hne : ((t.dropWhile isWhitespace ++ lengthPart len).length !=
          (t ++ lengthPart len).length) = true := by
        rw [bne_iff_ne, List.length_append, List.length_append]
        omega
      rw [hne, hdrop]
      simp
  have hoffset : (t.dropWhile isWhitespace ++ lengthPart len).takeWhile (· != ':') =
      t.dropWhile isWhitespace := by
    rw [List.takeWhile_append_of_pos hbne]
    cases len <;> simp [lengthPart]
  have hlength : (if (t.dropWhile isWhitespace ++ lengthPart len).contains ':' then
      some (((t.dropWhile isWhitespace ++ lengthPart len).dropWhile (· != ':')).drop 1)
      else none) = len := by
    rw [List.dropWhile_append_of_pos hbne]
    cases len with
    | none =>
      rw [if_neg]
      rw [lengthPart, List.append_nil]
      simpa using hcolon
    | some spec => simp [lengthPart]
  unfold tryExpandSubstring
  dsimp only
  rw [takeWhile_identifier hv hname (by decide), dropWhile_identifier hv hname (by decide),
    if_neg (by simp), List.drop_one, List.tail_cons, if_neg (by rw [hops]; exact Bool.false_ne_true),
    dropWhile_offset h, if_pos hnumeric, hvalue]
  dsimp only
  rw [hoffset, hlength]

end

/-! ## 2. The characters between two places -/

/-- The place of an offset, counted from the end when it is negative. -/
def startOf (chars : List Char) (off : Int) : Int := if off < 0 then chars.length + off else off

/-- The place where a substring ends. -/
def stopOf (chars : List Char) (start : Int) : Option Int → Int
  | none => chars.length
  | some n => if n < 0 then chars.length + n else start + n

/-- The characters from an offset on, up to a length; nothing when the offset lies before the
    first. -/
def charactersFrom (chars : List Char) (off : Int) (len : Option Int) : List Char :=
  let start := startOf chars off
  if start < 0 then [] else (chars.take (stopOf chars start len).toNat).drop start.toNat

/-- The sum of the clipped offset and the length is no `i64`. -/
def SumOverflows (chars : List Char) (off : Int) (len : Option Int) : Prop :=
  ∃ n, len = some n ∧ 0 ≤ n ∧ 0 ≤ startOf chars off ∧
    2 ^ 63 ≤ min (startOf chars off) chars.length + n

/-- Places beyond the end are as good as the end. -/
theorem drop_take_clipped (chars : List Char) (a b : Nat) :
    (chars.take b).drop a =
      (chars.drop (min a chars.length)).take (min b chars.length - min a chars.length) := by
  rw [List.drop_take]
  by_cases h : a ≤ chars.length
  · rw [Nat.min_eq_left h, List.take_eq_take_iff, List.length_drop]
    omega
  · rw [List.drop_eq_nil_of_le (by omega), List.drop_eq_nil_of_le (by omega), List.take_nil,
      List.take_nil]

theorem clampI64_of_lt {n : Nat} (h : n < 2 ^ 63) : clampI64 n = n := by
  unfold clampI64
  omega

/-- The cut between two clipped places is the cut between the places. -/
theorem cut_clipped {chars : List Char} {start stop a b : Int} (ha : 0 ≤ a)
    (hstart : start = min a chars.length)
    (hstop : stop = max start (min b chars.length)) :
    (if start.toNat ≤ min (max stop 0).toNat chars.length then
      some ((chars.drop start.toNat).take (min (max stop 0).toNat chars.length - start.toNat))
      else none) = some ((chars.take b.toNat).drop a.toNat) := by
  have hmin : start.toNat = min a.toNat chars.length := by omega
  have hmax : min (max stop 0).toNat chars.length = max start.toNat (min b.toNat chars.length) := by
    omega
  rw [hmax, if_pos (Nat.le_max_left _ _), drop_take_clipped, ← hmin]
  congr 2
  omega

/-- A sum that fits is clipped to the value, one that does not panics. -/
theorem substring_eq {chars : List Char} (hfits : chars.length < 2 ^ 63) {offsetStr : List Char}
    {off : Int} (hoff : parseI64 (trim offsetStr) = some off) {lengthStr : Option (List Char)}
    {len : Option Int} (hlen : lengthStr.map (fun t => parseI64 (trim t)) = len.map some) :
    (SumOverflows chars off len → substring chars offsetStr lengthStr = none) ∧
      (¬SumOverflows chars off len →
        substring chars offsetStr lengthStr = some (charactersFrom chars off len)) := by
  have hstart : startOf chars off = if off < 0 then (chars.length : Int) + off else off := rfl
  rw [substring, charactersFrom]
  dsimp only
  rw [hoff, Option.getD_some, clampI64_of_lt hfits]
  by_cases hbefore : off < 0 ∧ (chars.length : Int) + off < 0
  · have hneg : startOf chars off < 0 := by rw [hstart, if_pos hbefore.1]; exact hbefore.2
    constructor
    · rintro ⟨n, -, -, hnonneg, -⟩
      omega
    · intro _
      rw [if_pos hbefore, if_pos hneg]
  · have hnonneg : 0 ≤ startOf chars off := by rw [hstart]; split <;> omega
    have hclipped : (if off < 0 then max ((chars.length : Int) + off) 0
        else min off chars.length) = min (startOf chars off) chars.length := by
      rw [hstart]
      split <;> omega
    rw [if_neg hbefore, hclipped, if_neg (by omega : ¬startOf chars off < 0)]
    cases lengthStr with
    | none =>
      obtain rfl : len = none := by
        cases len with
        | none => rfl
        | some n => cases hlen
      constructor
      · rintro ⟨n, hn, -⟩
        cases hn
      · intro _
        apply cut_clipped hnonneg rfl
        rw [stopOf]
        omega
    | some spec =>
      obtain ⟨n, rfl, hn⟩ : ∃ n, len = some n ∧ parseI64 (trim spec) = some n := by
        cases len with
        | none => cases hlen
        | some n => exact ⟨n, rfl, Option.some.inj hlen⟩
      dsimp only
      rw [hn, Option.getD_some]
      by_cases hlast : n < 0
      · rw [if_pos hlast]
        constructor
        · rintro ⟨m, hm, hnot, -⟩
          obtain rfl := Option.some.inj hm
          omega
        · intro _
          apply cut_clipped hnonneg rfl
          rw [stopOf, if_pos hlast]
          omega
      · rw [if_neg hlast]
        constructor
        · rintro ⟨m, hm, -, -, hsum⟩
          obtain rfl := Option.some.inj hm
          rw [if_neg (by omega)]
          rfl
        · intro hsum
          have hsmall : min (startOf chars off) chars.length + n < 2 ^ 63 := by
            by_contra hlarge
            exact hsum ⟨n, rfl, by omega, hnonneg, by omega⟩
          rw [if_pos hsmall]
          apply cut_clipped hnonneg rfl
          rw [stopOf, if_neg hlast]
          omega

/-! ## 3. Substrings -/

theorem stripArrayGlobSuffix_of_not_mem {t : List Char} (h : ']' ∉ t) :
    stripArrayGlobSuffix t = none := by
  have hsuffix : ∀ c, ['[', c, ']'].isSuffixOf t = false := by
    intro c
    rw [Bool.eq_false_iff]
    intro hs
    exact h ((List.isSuffixOf_iff_suffix.mp hs).mem (by simp))
  rw [stripArrayGlobSuffix, hsuffix, hsuffix]
  rfl

section

variable (x : Rules) (depth : Nat) {v : List Char} {s : ShellState} {value : String}
variable {t : List Char} {off : Int} {lenText : Option (List Char)} {len : Option Int}

/-- What `expand_parameter` makes of a substring. -/
theorem expandParameter_substring (hv : isValidIdentifier v = true)
    (hvalue : s.getVar (String.ofList v) = some value) (hoff : ReadsOffset t)
    (hlen : lenText.map (fun t => parseI64 (trim t)) = len.map some) :
    expandParameter x depth (v ++ ':' :: (t ++ lengthPart lenText)) s =
      (substring value.toList (t.dropWhile isWhitespace) lenText).map fun text => ([], text) := by
  have hclose : ']' ∉ v ++ ':' :: (t ++ lengthPart lenText) := by
    intro hmem
    rcases List.mem_append.mp hmem with hmem | hmem
    · exact absurd (isNameByte_of_mem hv _ hmem) (by decide)
    · rcases List.mem_cons.mp hmem with hmem | hmem
      · exact absurd hmem (by decide)
      · rcases List.mem_append.mp hmem with hmem | hmem
        · exact not_mem_offset hoff (by decide) (by decide) (by decide) hmem
        · cases lenText with
          | none => cases hmem
          | some spec =>
            cases len with
            | none => cases hlen
            | some n =>
              rcases List.mem_cons.mp hmem with hmem | hmem
              · exact absurd hmem (by decide)
              · exact not_mem_parsed (Option.some.inj hlen) hmem
  have hforms : forms x (v ++ ':' :: (t ++ lengthPart lenText)) s =
      .ofResult (substring value.toList (t.dropWhile isWhitespace) lenText) := by
    rw [forms_name x hv (by decide) (by decide), tryExpandArrayAllValues,
      stripArrayGlobSuffix_of_not_mem hclose, tryExpandSubstitution_name hv (by decide) (by decide),
      tryExpandSubstring_name hv hoff lenText s hvalue]
    rfl
  rw [expandParameter_eq, hforms]
  cases substring value.toList (t.dropWhile isWhitespace) lenText <;> rfl

/-- A substring of a value, which has fewer than `2 ^ 63` characters as every `String` has:
    the expansion yields the characters between the two places unless the sum of the clipped
    offset and the length is no `i64`. -/
theorem substring_exact_iff (hv : isValidIdentifier v = true)
    (hvalue : s.getVar (String.ofList v) = some value) (hfits : value.toList.length < 2 ^ 63)
    (hoff : IsOffset t off) (hlen : lenText.map (fun t => parseI64 (trim t)) = len.map some) :
    expandParameter x depth (v ++ ':' :: (t ++ lengthPart lenText)) s =
        some ([], charactersFrom value.toList off len) ↔
      ¬SumOverflows value.toList off len := by
  have hparsed : parseI64 (trim (t.dropWhile isWhitespace)) = some off := by
    rw [trim_dropWhile, hoff.parsed]
  obtain ⟨hpanics, hcuts⟩ := substring_eq hfits hparsed hlen
  rw [expandParameter_substring x depth hv hvalue hoff.reads hlen]
  constructor
  · intro heq hsum
    rw [hpanics hsum] at heq
    cases heq
  · intro hsum
    rw [hcuts hsum]
    rfl

end

/-- Rules whose case tables are those of ASCII. -/
def Rules.ascii : Rules where
  expandIndex t _ := some ([], t)
  evalArithmetic _ _ := some ([], 0)
  toUppercase := List.map Char.toUpper
  toLowercase := List.map Char.toLower
  charToUppercase c := [c.toUpper]
  charToLowercase c := [c.toLower]

/-- A state in which `v` is a scalar. -/
def withV (value : String) : ShellState := .setEntry .new "v" (.ofScalar value)

/-- `${v: -4:3}` of `abcdef` is `cde`. -/
theorem substring_exact_short :
    charactersFrom "abcdef".toList (-4) (some 3) = "cde".toList ∧
      expandParameter .ascii 0 (['v'] ++ ':' :: ([' ', '-', '4'] ++ lengthPart (some ['3'])))
        (withV "abcdef") = some ([], charactersFrom "abcdef".toList (-4) (some 3)) := by
  have hsum : ¬SumOverflows "abcdef".toList (-4) (some 3) := by
    rintro ⟨n, hn, -, -, hsum⟩
    obtain rfl := Option.some.inj hn
    revert hsum
    decide
  have hvalue : (withV "abcdef").getVar (String.ofList ['v']) = some "abcdef" := by decide
  exact ⟨by decide, (substring_exact_iff .ascii 0 (by decide) hvalue (by decide)
    ⟨by decide, by decide, by decide⟩ (by decide)).mpr hsum⟩

/-- `${v:1:9223372036854775807}` of `ab` panics. -/
theorem long_length_panics :
    ¬∀ (x : Rules) (depth : Nat) (v t : List Char) (s : ShellState) (value : String) (off : Int)
      (lenText : Option (List Char)) (len : Option Int), isValidIdentifier v = true →
      s.getVar (String.ofList v) = some value → value.toList.length < 2 ^ 63 → IsOffset t off →
      lenText.map (fun t => parseI64 (trim t)) = len.map some →
      expandParameter x depth (v ++ ':' :: (t ++ lengthPart lenText)) s =
        some ([], charactersFrom value.toList off len) := by
  intro h
  have hvalue : (withV "ab").getVar (String.ofList ['v']) = some "ab" := by decide
  have hoff : IsOffset ['1'] 1 := ⟨by decide, by decide, by decide⟩
  have hlen : (some "9223372036854775807".toList).map (fun t => parseI64 (trim t)) =
      (some 9223372036854775807).map some := by decide
  have heq := h .ascii 0 ['v'] ['1'] (withV "ab") "ab" 1 _ _ (by decide) hvalue (by decide) hoff
    hlen
  rw [expandParameter_substring .ascii 0 (by decide) hvalue hoff.reads hlen] at heq
  revert heq
  decide

/-! ## 4. Lengths -/

section

variable (x : Rules) (depth : Nat) {v : List Char} {s : ShellState} {value : String}

/-- What `expand_parameter` makes of a length. -/
theorem expandParameter_length (hv : isValidIdentifier v = true)
    (hvalue : s.getVar (String.ofList v) = some value) :
    expandParameter x depth ('#' :: v) s = some ([], (toString (size value.toList)).toList) := by
  have hbracket : '[' ∉ '#' :: v := by
    intro hmem
    rcases List.mem_cons.mp hmem with hmem | hmem
    · exact absurd hmem (by decide)
    · exact absurd (isNameByte_of_mem hv _ hmem) (by decide)
  have hclose : ∀ {u}, u = v ∨ u = '#' :: v → ']' ∉ u := by
    rintro u (rfl | rfl) hmem
    · exact absurd (isNameByte_of_mem hv _ hmem) (by decide)
    · rcases List.mem_cons.mp hmem with hmem | hmem
      · exact absurd hmem (by decide)
      · exact absurd (isNameByte_of_mem hv _ hmem) (by decide)
  have hnot : subscript ('#' :: v) = none := by
    unfold subscript
    dsimp only
    rw [if_neg]
    rw [Bool.and_eq_true, List.contains_iff_mem]
    exact fun h => hbracket h.1
  have harray : tryExpandArraySubscript x ('#' :: v) s = .skipped := by
    rw [tryExpandArraySubscript, tryExpandArrayLengthOrKeys, tryExpandArraySlice,
      tryExpandArrayAllValues, tryExpandArraySingleElement, hnot,
      stripArrayGlobSuffix_of_not_mem (hclose (.inl rfl)),
      stripArrayGlobSuffix_of_not_mem (hclose (.inr rfl))]
    rfl
  have hplain : ∀ d, isNameByte d = false → v ≠ [d] := by
    rintro d hd rfl
    exact absurd (isNameByte_of_mem hv d List.mem_cons_self) (by rw [hd]; decide)
  have hlength : tryExpandStringLength ('#' :: v) s =
      some (toString (size value.toList)).toList := by
    rw [tryExpandStringLength, if_neg (ne_nil_of_identifier hv),
      if_neg (not_or.mpr ⟨hplain _ (by decide), hplain _ (by decide)⟩), hvalue]
    rfl
  rw [expandParameter_eq, forms, harray, hlength]
  rfl

theorem isWhitespace_of_digit {c : Char} (hc : c.isDigit = true) : isWhitespace c = false := by
  rw [Char.isDigit, Bool.and_eq_true, decide_eq_true_eq, decide_eq_true_eq] at hc
  have hlo : 48 ≤ c.toNat := hc.1
  have hhi : c.toNat ≤ 57 := hc.2
  simp only [isWhitespace, Bool.or_eq_false_iff, Bool.and_eq_false_iff, beq_eq_false_iff_ne,
    decide_eq_false_iff_not]
  omega

/-- What `expand_parameter` makes of `${v:n}`; an `n` that is no `i64` is read as 0. -/
theorem expandParameter_drop (hv : isValidIdentifier v = true)
    (hvalue : s.getVar (String.ofList v) = some value) (hfits : value.toList.length < 2 ^ 63)
    (n : Nat) :
    expandParameter x depth (v ++ ':' :: Nat.toDigits 10 n) s =
      some ([], if n < 2 ^ 63 then value.toList.drop n else value.toList) := by
  obtain ⟨hne, hdigits⟩ := digits_of_digitsValue (Arith.digitsValue_toDigits n)
  have hblank : ∀ b ∈ Nat.toDigits 10 n, isWhitespace b = false := fun b hb =>
    isWhitespace_of_digit (hdigits b hb)
  have htrim : trim (Nat.toDigits 10 n) = Nat.toDigits 10 n :=
    Arith.trim_of_ends (fun c hc => hblank c (List.mem_of_head? hc))
      fun c hc => hblank c (List.mem_of_getLast? hc)
  obtain ⟨c, cs, hcons⟩ := List.exists_cons_of_ne_nil hne
  have hc : c.isDigit = true := hdigits c (by rw [hcons]; exact List.mem_cons_self)
  have hdrop : (Nat.toDigits 10 n).dropWhile isWhitespace = Nat.toDigits 10 n := by
    rw [hcons, List.dropWhile_cons, isWhitespace_of_digit hc, if_neg Bool.false_ne_true]
  have hreads : ReadsOffset (Nat.toDigits 10 n) := by
    refine ⟨⟨c, cs, hdrop.trans hcons, .inl hc, fun b hb => .inr (.inl (hdigits b hb))⟩, ?_⟩
    rw [hcons]
    rintro heq
    rw [Option.some.inj heq] at hc
    exact absurd hc (by decide)
  have hname := @expandParameter_substring x depth v s value _ none none hv hvalue hreads rfl
  rw [lengthPart, List.append_nil, hdrop] at hname
  rw [hname]
  have hparsed := Arith.parseI64_toDigits n
  rw [Option.filter_some] at hparsed
  by_cases h : n < 2 ^ 63
  · rw [if_pos (decide_eq_true (by omega))] at hparsed
    have hoff : parseI64 (trim (Nat.toDigits 10 n)) = some (n : Int) := by rw [htrim, hparsed]
    have hno : ¬SumOverflows value.toList n none := by
      rintro ⟨m, hm, -⟩
      cases hm
    rw [(substring_eq hfits hoff rfl).2 hno, if_pos h, charactersFrom, startOf, stopOf]
    rw [if_neg (by omega), if_neg (by omega), Int.toNat_natCast, Int.toNat_natCast,
      List.take_length]
    rfl
  · rw [if_neg (by simpa using h)] at hparsed
    rw [substring]
    dsimp only
    rw [htrim, hparsed, Option.getD_none, clampI64_of_lt hfits, if_neg (by omega), if_neg (by omega),
      if_neg h]
    have hcut := @cut_clipped value.toList _ value.toList.length 0 value.toList.length (le_refl 0)
      rfl (by omega)
    rw [Int.toNat_natCast, List.take_length] at hcut
    rw [Option.bind_some, hcut]
    rfl

/-! ### The units of the two -/

/-- When the first `n` characters have no more than `n` bytes, the others have the rest. -/
theorem size_drop {cs : List Char} {n : Nat} (h : size (cs.take n) ≤ n) :
    size (cs.drop n) = size cs - n ∧ (cs.drop n = [] ↔ size cs ≤ n) := by
  have hsum := Utf8.size_append (cs.take n) (cs.drop n)
  rw [List.take_append_drop] at hsum
  have hchars := Utf8.length_le_size (cs.take n)
  rw [List.length_take] at hchars
  by_cases hn : n ≤ cs.length
  · have hsize : size (cs.drop n) = size cs - n := by omega
    refine ⟨hsize, ?_, ?_⟩
    · intro hnil
      rw [hnil, show size [] = 0 from rfl] at hsize
      omega
    · intro hle
      exact Utf8.size_eq_zero_iff.mp (by omega)
  · rw [List.take_of_length_le (by omega)] at h
    rw [List.drop_eq_nil_of_le (by omega), show size [] = 0 from rfl]
    exact ⟨by omega, fun _ => h, fun _ => rfl⟩

/-- `${#v}` and `${v:n}` count the same units: the text of the second is empty from the number
    that the first prints on, and its own length is that number less `n`. -/
def UnitsAgree (x : Rules) (depth : Nat) (v : List Char) (n : Nat) (s : ShellState) : Prop :=
  ∃ len text, expandParameter x depth ('#' :: v) s = some ([], (toString len).toList) ∧
    expandParameter x depth (v ++ ':' :: Nat.toDigits 10 n) s = some ([], text) ∧
    (text = [] ↔ len ≤ n) ∧
    ∀ (w : List Char) (s' : ShellState), isValidIdentifier w = true →
      s'.getVar (String.ofList w) = some (String.ofList text) →
      expandParameter x depth ('#' :: w) s' = some ([], (toString (len - n)).toList)

theorem toString_inj {m n : Nat} (h : (toString m).toList = (toString n).toList) : m = n := by
  have hdigits : Nat.toDigits 10 m = Nat.toDigits 10 n := by
    rw [← Nat.toList_repr, ← Nat.toList_repr]
    exact h
  have hvalue := Arith.digitsValue_toDigits m
  rw [hdigits, Arith.digitsValue_toDigits] at hvalue
  exact (Option.some.inj hvalue).symm

/-- What the agreement says about the value alone. -/
theorem unitsAgree_sizes (hv : isValidIdentifier v = true)
    (hvalue : s.getVar (String.ofList v) = some value) (hfits : value.toList.length < 2 ^ 63)
    (n : Nat) : UnitsAgree x depth v n s ↔
      let text := if n < 2 ^ 63 then value.toList.drop n else value.toList
      (text = [] ↔ size value.toList ≤ n) ∧ size text = size value.toList - n := by
  have hlength := expandParameter_length x depth hv hvalue
  have hdrop := expandParameter_drop x depth hv hvalue hfits n
  dsimp only
  generalize (if n < 2 ^ 63 then value.toList.drop n else value.toList) = text at hdrop ⊢
  constructor
  · rintro ⟨len, text', hlen, htext, hempty, hrest⟩
    rw [hlength] at hlen
    obtain rfl := toString_inj (Prod.mk.inj (Option.some.inj hlen)).2
    rw [hdrop] at htext
    obtain rfl := (Prod.mk.inj (Option.some.inj htext)).2
    refine ⟨hempty, ?_⟩
    -- a state in which the text is a value again
    have hset : (withV (String.ofList text)).getVar (String.ofList ['v']) =
        some (String.ofList text) := rfl
    have hagain := hrest ['v'] _ (by decide) hset
    rw [expandParameter_length x depth (by decide) hset, String.toList_ofList] at hagain
    exact toString_inj (Prod.mk.inj (Option.some.inj hagain)).2
  · rintro ⟨hempty, hsize⟩
    refine ⟨_, text, hlength, hdrop, hempty, ?_⟩
    intro w s' hw hset
    rw [expandParameter_length x depth hw hset, String.toList_ofList, hsize]

/-- `${v:n}` counts characters and `${#v}` bytes: they agree when the first `n` characters of
    the value have no more than `n` bytes.  From `2 ^ 63` on `n` is read as 0, and they agree
    on the empty value only. -/
theorem units_agree_iff (hv : isValidIdentifier v = true)
    (hvalue : s.getVar (String.ofList v) = some value) (hfits : value.toList.length < 2 ^ 63)
    (n : Nat) : UnitsAgree x depth v n s ↔
      (n < 2 ^ 63 → size (value.toList.take n) ≤ n) ∧ (2 ^ 63 ≤ n → value.toList = []) := by
  rw [unitsAgree_sizes x depth hv hvalue hfits]
  dsimp only
  by_cases h : n < 2 ^ 63
  · rw [if_pos h]
    have hsum := Utf8.size_append (value.toList.take n) (value.toList.drop n)
    rw [List.take_append_drop] at hsum
    constructor
    · rintro ⟨hempty, hsize⟩
      refine ⟨fun _ => ?_, fun hle => by omega⟩
      by_contra hlarge
      omega
    · rintro ⟨hsize, -⟩
      exact ⟨(size_drop (hsize h)).2, (size_drop (hsize h)).1⟩
  · rw [if_neg h]
    constructor
    · rintro ⟨hempty, hsize⟩
      refine ⟨fun hlt => absurd hlt h, fun _ => ?_⟩
      by_contra hne
      have hpos : ¬size value.toList ≤ n := fun hle => hne (hempty.mpr hle)
      omega
    · rintro ⟨-, hnil⟩
      have hnil := hnil (by omega)
      rw [hnil]
      exact ⟨⟨fun _ => Nat.zero_le n, fun _ => rfl⟩, (Nat.zero_sub n).symm⟩

end

theorem units_agree_plain : UnitsAgree .ascii 0 ['v'] 1 (withV "ab") := by
  have hvalue : (withV "ab").getVar (String.ofList ['v']) = some "ab" := by decide
  exact (units_agree_iff .ascii 0 (by decide) hvalue (by decide) 1).mpr
    ⟨fun _ => by decide, fun h => absurd h (by decide)⟩

/-- `${#v}` of `é` is 2, and `${v:1}` is empty. -/
theorem accented_letter_counts_twice :
    ¬∀ (x : Rules) (depth : Nat) (v : List Char) (s : ShellState) (value : String) (n : Nat),
      isValidIdentifier v = true → s.getVar (String.ofList v) = some value →
      value.toList.length < 2 ^ 63 → UnitsAgree x depth v n s := by
  intro h
  have hvalue : (withV "é").getVar (String.ofList ['v']) = some "é" := by decide
  have hunits := h .ascii 0 ['v'] (withV "é") "é" 1 (by decide) hvalue (by decide)
  rw [unitsAgree_sizes .ascii 0 (by decide) hvalue (by decide)] at hunits
  revert hunits
  decide

end Wasmsh.Params

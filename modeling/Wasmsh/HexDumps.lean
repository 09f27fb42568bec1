import Mathlib.Data.List.Basic
import Wasmsh.CommandTemplates
import Wasmsh.WordParser

/-!
# Hex dumps

`xxd`, `xxd -p` and `xxd -r` of `wasmsh-utils/src/binary_ops.rs` on the bytes of one input.
-/

namespace Wasmsh.Xxd

open WordParser (hexDigit)

variable {c : Char}

abbrev Line := List Char

/-! ## 1. The dump -/

/-- `{b:02x}`. -/
def hexByte (b : UInt8) : Line := [Nat.digitChar (b.toNat / 16), Nat.digitChar (b.toNat % 16)]

/-- `{offset:08x}`. -/
def hexOffset (n : Nat) : Line :=
  List.replicate (8 - (Nat.toDigits 16 n).length) '0' ++ Nat.toDigits 16 n

def gap (i : Nat) : Line := if i % 2 = 0 then [' '] else []

/-- `xxd_write_hex`, from byte `i` of the chunk on. -/
def writeHex (i : Nat) : List UInt8 → Line
  | [] => []
  | b :: bs => gap i ++ hexByte b ++ writeHex (i + 1) bs

def padHex (used cols : Nat) : Line :=
  (List.range (cols - used)).flatMap fun i => gap (used + i) ++ [' ', ' ']

def writeAscii (chunk : List UInt8) : Line :=
  chunk.map fun b => if 0x20 ≤ b.toNat ∧ b.toNat ≤ 0x7e then Char.ofNat b.toNat else '.'

def dumpLine (cols offset : Nat) (chunk : List UInt8) : Line :=
  hexOffset offset ++ ':' :: (writeHex 0 chunk ++ padHex chunk.length cols ++ ' ' :: ' ' ::
    writeAscii chunk)

/-- The chunk at an index, and how many there are. -/
def chunk (cols : Nat) (data : List UInt8) (i : Nat) : List UInt8 := (data.drop (i * cols)).take cols

def chunkCount (cols : Nat) (data : List UInt8) : Nat := (data.length + cols - 1) / cols

def xxdDefault (cols : Nat) (data : List UInt8) : List Char :=
  (List.range (chunkCount cols data)).flatMap fun i =>
    dumpLine cols (i * cols) (chunk cols data i) ++ ['\n']

/-- The loop of `xxd_plain`, with the line that it has begun. -/
def plainLoop : List UInt8 → Nat → Line → List Char
  | [], _, line => if line = [] then [] else line ++ ['\n']
  | b :: bs, i, line =>
    if (i + 1) % 30 = 0 then line ++ hexByte b ++ '\n' :: plainLoop bs (i + 1) []
    else plainLoop bs (i + 1) (line ++ hexByte b)

def xxdPlain (data : List UInt8) : List Char := plainLoop data 0 []

/-! ## 2. The reverse -/

/-- What stands before the last two spaces in a row. -/
def beforeSpaces : Line → Option Line
  | [] => none
  | c :: t =>
    match beforeSpaces t with
    | some before => some (c :: before)
    | none => if c = ' ' ∧ t.head? = some ' ' then some [] else none

def isHexDigit (c : Char) : Bool := (hexDigit c).isSome

def xxdExtractHex (line : Line) : Line :=
  let hexPart := if ':' ∈ line then (line.dropWhile (· ≠ ':')).tail else line
  ((beforeSpaces hexPart).getD hexPart).filter isHexDigit

def xxdHexToBytes : Line → List UInt8
  | a :: b :: rest =>
    UInt8.ofNat ((hexDigit a).getD 0 * 16 + (hexDigit b).getD 0) :: xxdHexToBytes rest
  | _ => []

def xxdReverse (text : List Char) : List UInt8 :=
  (linesFrom [] text).flatMap fun line => xxdHexToBytes (xxdExtractHex line)

/-- The columns of `-c`. -/
def columns (cols : Nat) : Nat := if cols = 0 then 16 else cols

def RoundTrips (cols : Nat) (data : List UInt8) : Prop :=
  xxdReverse (xxdDefault (columns cols) data) = data ∧ xxdReverse (xxdPlain data) = data

/-- The hex digits of the printable column before its last two spaces in a row. -/
def straySigns (chunk : List UInt8) : Line :=
  ((beforeSpaces (writeAscii chunk)).getD []).filter isHexDigit

/-! ## 3. Bytes and digits -/

theorem hexDigit_digitChar : ∀ d < 16, hexDigit (Nat.digitChar d) = some d := by decide

theorem digits_hexByte (b : UInt8) : (hexByte b).filter isHexDigit = hexByte b := by
  have h₁ := hexDigit_digitChar (b.toNat / 16) (by have := b.toNat_lt; omega)
  have h₂ := hexDigit_digitChar (b.toNat % 16) (by omega)
  simp [hexByte, isHexDigit, h₁, h₂]

theorem hexToBytes_hexByte (b : UInt8) (rest : Line) :
    xxdHexToBytes (hexByte b ++ rest) = b :: xxdHexToBytes rest := by
  have h₁ := hexDigit_digitChar (b.toNat / 16) (by have := b.toNat_lt; omega)
  have h₂ := hexDigit_digitChar (b.toNat % 16) (by omega)
  have hvalue : b.toNat / 16 * 16 + b.toNat % 16 = b.toNat := Nat.div_add_mod' _ _
  simp [hexByte, xxdHexToBytes, h₁, h₂, hvalue]

theorem hexToBytes_flatMap (bs : List UInt8) (rest : Line) :
    xxdHexToBytes (bs.flatMap hexByte ++ rest) = bs ++ xxdHexToBytes rest := by
  induction bs with
  | nil => rfl
  | cons b bs ih => rw [List.flatMap_cons, List.append_assoc, hexToBytes_hexByte, ih]; rfl

theorem hexToBytes_eq_nil {ds : Line} : xxdHexToBytes ds = [] ↔ ds.length < 2 := by
  rcases ds with _ | ⟨a, _ | ⟨b, rest⟩⟩ <;> simp [xxdHexToBytes]

theorem digits_writeHex (i : Nat) (bs : List UInt8) :
    (writeHex i bs).filter isHexDigit = bs.flatMap hexByte := by
  induction bs generalizing i with
  | nil => rfl
  | cons b bs ih =>
    have hgap : (gap i).filter isHexDigit = [] := by unfold gap; split <;> rfl
    rw [writeHex, List.filter_append, List.filter_append, hgap, digits_hexByte, ih]
    rfl

theorem digits_padHex (used cols : Nat) : (padHex used cols).filter isHexDigit = [] := by
  rw [List.filter_eq_nil_iff]
  intro c hc
  obtain ⟨i, -, hc⟩ := List.mem_flatMap.mp hc
  have hspace : c = ' ' := by
    unfold gap at hc
    split at hc <;> simpa using hc
  rw [hspace]
  decide

/-! ## 4. The last two spaces -/

theorem beforeSpaces_append (s : Line) {t before : Line} (h : beforeSpaces t = some before) :
    beforeSpaces (s ++ t) = some (s ++ before) := by
  induction s with
  | nil => exact h
  | cons c s ih => rw [List.cons_append, beforeSpaces, ih]; rfl

/-- The two spaces in front of the printable column are the last ones, or those inside it. -/
theorem digits_beforeSpaces (s t : Line) :
    ((beforeSpaces (s ++ ' ' :: ' ' :: t)).map (List.filter isHexDigit)) =
      some (s.filter isHexDigit ++ ((beforeSpaces t).getD []).filter isHexDigit) := by
  cases h : beforeSpaces t with
  | some before =>
    have hboth : beforeSpaces (' ' :: ' ' :: t) = some (' ' :: ' ' :: before) :=
      beforeSpaces_append [' ', ' '] h
    rw [beforeSpaces_append s hboth, Option.map_some, List.filter_append]
    rfl
  | none =>
    have hspaces : ∃ k, beforeSpaces (' ' :: ' ' :: t) = some (List.replicate k ' ') := by
      by_cases hhead : t.head? = some ' '
      · exact ⟨1, by simp [beforeSpaces, h, hhead]⟩
      · exact ⟨0, by simp [beforeSpaces, h, hhead]⟩
    obtain ⟨k, hk⟩ := hspaces
    have hdigits : (List.replicate k ' ').filter isHexDigit = [] := by
      rw [List.filter_replicate, if_neg (by decide)]
    rw [beforeSpaces_append s hk, Option.map_some, List.filter_append, hdigits]
    rfl

/-! ## 5. Lines -/

theorem isHexDigit_digitChar {d : Nat} (h : d < 16) : isHexDigit (Nat.digitChar d) = true := by
  rw [isHexDigit, hexDigit_digitChar d h]
  rfl

theorem digits_toDigits (n : Nat) : ∀ c ∈ Nat.toDigits 16 n, isHexDigit c = true := by
  induction n using Nat.strong_induction_on with
  | _ n ih =>
    rcases Nat.lt_or_ge n 16 with hn | hn
    · rw [Nat.toDigits_of_lt_base hn]
      simpa using isHexDigit_digitChar hn
    · rw [Nat.toDigits_of_base_le (by decide) hn]
      intro c hc
      rcases List.mem_append.mp hc with hc | hc
      · exact ih (n / 16) (by omega) c hc
      · rw [List.mem_singleton.mp hc]
        exact isHexDigit_digitChar (Nat.mod_lt n (by decide))

theorem digits_hexOffset {n : Nat} (h : c ∈ hexOffset n) : isHexDigit c = true := by
  rcases List.mem_append.mp h with h | h
  · rw [List.eq_of_mem_replicate h]
    decide
  · exact digits_toDigits n c h

theorem isHexDigit_ge (h : isHexDigit c = true) : 0x20 ≤ c.toNat := by
  by_contra hlow
  have hnone : hexDigit c = none := by
    have h₀ : ¬ '0' ≤ c := fun h => hlow (le_trans (by decide) h)
    have h₁ : ¬ 'a' ≤ c := fun h => hlow (le_trans (by decide) h)
    have h₂ : ¬ 'A' ≤ c := fun h => hlow (le_trans (by decide) h)
    rw [hexDigit, if_neg fun h => h₀ h.1, if_neg fun h => h₁ h.1, if_neg fun h => h₂ h.1]
  rw [isHexDigit, hnone] at h
  cases h

theorem hexByte_digits {b : UInt8} (h : c ∈ hexByte b) : isHexDigit c = true := by
  rw [← digits_hexByte] at h
  exact (List.mem_filter.mp h).2

theorem gap_ge {i : Nat} (h : c ∈ gap i) : 0x20 ≤ c.toNat := by
  unfold gap at h
  split at h
  · rw [List.mem_singleton.mp h]
    decide
  · cases h

theorem writeHex_ge {i : Nat} {bs : List UInt8} (h : c ∈ writeHex i bs) :
    0x20 ≤ c.toNat := by
  induction bs generalizing i with
  | nil => cases h
  | cons b bs ih =>
    rcases List.mem_append.mp h with h | h
    · rcases List.mem_append.mp h with h | h
      · exact gap_ge h
      · exact isHexDigit_ge (hexByte_digits h)
    · exact ih h

theorem padHex_ge {used cols : Nat} (h : c ∈ padHex used cols) : 0x20 ≤ c.toNat := by
  obtain ⟨i, -, h⟩ := List.mem_flatMap.mp h
  rcases List.mem_append.mp h with h | h
  · exact gap_ge h
  · rw [show c = ' ' by simpa using h]
    decide

theorem writeAscii_ge {bs : List UInt8} (h : c ∈ writeAscii bs) : 0x20 ≤ c.toNat := by
  obtain ⟨b, -, rfl⟩ := List.mem_map.mp h
  split
  · next hb =>
    have hvalid : b.toNat.isValidChar := .inl (by omega)
    rw [Char.ofNat, dif_pos hvalid]
    exact hb.1
  · decide

theorem dumpLine_ge {cols offset : Nat} {bs : List UInt8}
    (h : c ∈ dumpLine cols offset bs) : 0x20 ≤ c.toNat := by
  simp only [dumpLine, List.mem_append, List.mem_cons] at h
  rcases h with h | rfl | (h | h) | rfl | rfl | h
  · exact isHexDigit_ge (digits_hexOffset h)
  · decide
  · exact writeHex_ge h
  · exact padHex_ge h
  · decide
  · decide
  · exact writeAscii_ge h

theorem extractHex_dumpLine (cols offset : Nat) (bs : List UInt8) :
    xxdExtractHex (dumpLine cols offset bs) = bs.flatMap hexByte ++ straySigns bs := by
  have hcolon : ':' ∈ dumpLine cols offset bs := by simp [dumpLine]
  have hoffset : ∀ c ∈ hexOffset offset, decide (c ≠ ':') = true := by
    intro c hc
    have hdigit := digits_hexOffset hc
    rw [decide_eq_true_eq]
    rintro rfl
    exact absurd hdigit (by decide)
  have hline := digits_beforeSpaces (writeHex 0 bs ++ padHex bs.length cols) (writeAscii bs)
  obtain ⟨before, hbefore, hdigits⟩ := Option.map_eq_some_iff.mp hline
  rw [xxdExtractHex, if_pos hcolon, dumpLine, List.dropWhile_append_of_pos hoffset,
    List.dropWhile_cons_of_neg (by decide), List.tail_cons]
  simp only [hbefore, Option.getD_some, hdigits]
  rw [List.filter_append, digits_writeHex, digits_padHex, List.append_nil, straySigns]

/-- One printed line is read, and then the others. -/
theorem reverse_line {line rest : Line} (h : ∀ c ∈ line, 0x20 ≤ c.toNat) :
    xxdReverse (line ++ '\n' :: rest) = xxdHexToBytes (xxdExtractHex line) ++ xxdReverse rest := by
  have hnewline : '\n' ∉ line := fun hc => absurd (h _ hc) (by decide)
  have hreturn : line.getLast? ≠ some '\r' :=
    fun hc => absurd (h _ (List.mem_of_getLast? hc)) (by decide)
  rw [xxdReverse, linesFrom_append hnewline, List.nil_append, Parser.stripReturn, if_neg hreturn,
    List.flatMap_cons]
  rfl

/-! ## 6. The plain form -/

theorem extractHex_digits {line : Line} (h : ∀ c ∈ line, isHexDigit c = true) :
    xxdExtractHex line = line := by
  have hcolon : ':' ∉ line := fun hc => absurd (h _ hc) (by decide)
  have hspaces : beforeSpaces line = none := by
    clear hcolon
    induction line with
    | nil => rfl
    | cons c line ih =>
      have hc : c ≠ ' ' := by
        rintro rfl
        exact absurd (h ' ' (.head _)) (by decide)
      rw [beforeSpaces, ih fun d hd => h d (.tail _ hd)]
      exact if_neg fun hs => hc hs.1
  simp only [xxdExtractHex, if_neg hcolon, hspaces, Option.getD_none]
  exact List.filter_eq_self.mpr h

theorem reverse_plainLine (bs : List UInt8) (rest : Line) :
    xxdReverse (bs.flatMap hexByte ++ '\n' :: rest) = bs ++ xxdReverse rest := by
  have hdigits : ∀ c ∈ bs.flatMap hexByte, isHexDigit c = true := by
    intro c hc
    obtain ⟨b, -, hc⟩ := List.mem_flatMap.mp hc
    exact hexByte_digits hc
  have hbytes := hexToBytes_flatMap bs []
  rw [List.append_nil] at hbytes
  rw [reverse_line fun c hc => isHexDigit_ge (hdigits c hc), extractHex_digits hdigits, hbytes]
  simp [xxdHexToBytes]

theorem reverse_plainLoop (bs acc : List UInt8) (i : Nat) :
    xxdReverse (plainLoop bs i (acc.flatMap hexByte)) = acc ++ bs := by
  induction bs generalizing acc i with
  | nil =>
    rw [plainLoop]
    split
    · next h =>
      cases acc with
      | nil => rfl
      | cons b acc => cases h
    · exact reverse_plainLine acc []
  | cons b bs ih =>
    have hline : acc.flatMap hexByte ++ hexByte b = (acc ++ [b]).flatMap hexByte := by simp
    have hrest : xxdReverse (plainLoop bs (i + 1) []) = bs := ih [] (i + 1)
    rw [plainLoop, hline]
    split
    · rw [reverse_plainLine, hrest, List.append_assoc]
      rfl
    · rw [ih, List.append_assoc]
      rfl

/-! ## 7. The dump -/

theorem chunks_eq_take (cols : Nat) (data : List UInt8) (k : Nat) :
    (List.range k).flatMap (chunk cols data) = data.take (k * cols) := by
  induction k with
  | zero => simp
  | succ k ih =>
    rw [List.range_succ, List.flatMap_append, ih, Nat.succ_mul, List.take_add]
    simp [chunk]

theorem chunks_eq {cols : Nat} (h : 0 < cols) (data : List UInt8) :
    (List.range (chunkCount cols data)).flatMap (chunk cols data) = data := by
  rw [chunks_eq_take, List.take_of_length_le]
  have hdiv := Nat.div_add_mod (data.length + cols - 1) cols
  have hmod := Nat.mod_lt (data.length + cols - 1) h
  rw [chunkCount, Nat.mul_comm]
  omega

theorem reverse_default (cols : Nat) (data : List UInt8) :
    xxdReverse (xxdDefault cols data) = (List.range (chunkCount cols data)).flatMap fun i =>
      chunk cols data i ++ xxdHexToBytes (straySigns (chunk cols data i)) := by
  rw [xxdDefault]
  induction List.range (chunkCount cols data) with
  | nil => rfl
  | cons i is ih =>
    rw [List.flatMap_cons, List.append_assoc, List.singleton_append,
      reverse_line fun c hc => dumpLine_ge hc, ih, extractHex_dumpLine, hexToBytes_flatMap]
    rfl

/-- Bytes between the chunks make the whole longer. -/
theorem between_eq_iff (is : List Nat) (f g : Nat → List UInt8) :
    is.flatMap (fun i => f i ++ g i) = is.flatMap f ↔ ∀ i ∈ is, g i = [] := by
  constructor
  · intro h i hi
    have hlength := congrArg List.length h
    simp only [List.length_flatMap, List.length_append] at hlength
    rw [List.sum_map_add, Nat.add_eq_left, List.sum_eq_zero_iff] at hlength
    exact List.length_eq_zero_iff.mp (hlength _ (List.mem_map.mpr ⟨i, hi, rfl⟩))
  · intro h
    exact List.flatMap_congr fun i hi => by rw [h i hi, List.append_nil]

/-- A dump reads back as its bytes exactly when no line has two signs of hex digits before the last
two spaces in a row of its printable column. -/
theorem dump_reads_back_iff (cols : Nat) (data : List UInt8) :
    RoundTrips cols data ↔ ∀ i < chunkCount (columns cols) data,
      (straySigns (chunk (columns cols) data i)).length < 2 := by
  have hcols : 0 < columns cols := by
    unfold columns
    split <;> omega
  have hplain : xxdReverse (xxdPlain data) = data := reverse_plainLoop data [] 0
  have hdump := between_eq_iff (List.range (chunkCount (columns cols) data))
    (chunk (columns cols) data) fun i => xxdHexToBytes (straySigns (chunk (columns cols) data i))
  rw [chunks_eq hcols, ← reverse_default] at hdump
  simp only [RoundTrips, hplain, and_true, hdump, List.mem_range, hexToBytes_eq_nil]

/-- The line of `ab`, two spaces: four bytes are printed and five are read. -/
theorem letters_read_twice : ¬ RoundTrips 16 [97, 98, 32, 32] := by
  intro h
  exact absurd h.1 (by decide)

end Wasmsh.Xxd

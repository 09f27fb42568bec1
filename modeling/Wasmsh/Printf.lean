import Wasmsh.ShellQuote

/-!
# `printf`

`builtin_printf` of `wasmsh-builtins/src/lib.rs`, byte by byte, against the utility as POSIX
has it: the format is read as characters and conversions, and used again while arguments are
left.  Texts that are written are lists of their bytes.  An overflow of `usize` or `u8` and a
cut inside a character are panics, which are missing results; the text of a floating-point
number is a parameter.
-/

namespace Wasmsh.Printf

open Wasmsh.Parser WordParser WordTexts

variable {args : List (List Char)} {items : List Item}

/-! ## 1. Escapes -/

/-- The escapes of one letter. -/
def letterEscapes : List (Char × Char) :=
  [('n', '\n'), ('t', '\t'), ('\\', '\\'), ('r', '\r'), ('a', '\x07'), ('b', '\x08'),
    ('f', '\x0c'), ('v', '\x0b')]

/-- `parse_echo_octal`. -/
def parseEchoOctal : Nat → Nat → List Char → Option (Char × List Char)
  | n + 1, val, b :: bs =>
    if isOctalDigit b then
      let val' := val * 8 + (b.toNat - '0'.toNat)
      if val' < 256 then parseEchoOctal n val' bs else none
    else some (Char.ofNat val, b :: bs)
  | _, val, bs => some (Char.ofNat val, bs)

/-- `parse_hex_escape`. -/
def parseHexEscape : Nat → Nat → List Char → Char × List Char
  | n + 1, val, b :: bs =>
    match hexDigit b with
    | some digit => parseHexEscape n (val * 16 + digit) bs
    | none => (Char.ofNat val, b :: bs)
  | _, val, bs => (Char.ofNat val, bs)

/-- `printf_escape`, behind the backslash. -/
def printfEscape (b : Char) (bs : List Char) : Option (Char × List Char) :=
  match letterEscapes.lookup b with
  | some c => some (c, bs)
  | none =>
    if isOctalDigit b then parseEchoOctal 3 0 (b :: bs)
    else if b = 'x' then some (parseHexEscape 2 0 bs)
    else some ('\\', b :: bs)

/-- A turn of `process_printf_backslash_escapes`. -/
def escapeStep (b : Char) (bs : List Char) : Option (List Char × List Char) :=
  match bs with
  | [] => some ([b], [])
  | b' :: bs' =>
    if b = '\\' then
      match letterEscapes.lookup b' with
      | some c => some ([c], bs')
      | none =>
        if isOctalDigit b' then
          (parseEchoOctal 3 0 (if b' = '0' then bs' else bs)).map fun r => ([r.1], r.2)
        else if b' = 'x' then some ([(parseHexEscape 2 0 bs').1], (parseHexEscape 2 0 bs').2)
        else some (['\\', b'], bs')
    else some ([b], bs)

/-- A loop over bytes; the number counts those that a turn has passed over. -/
def scan {α : Type} (step : Char → List Char → Option (α × List Char)) :
    Nat → List Char → Option (List α)
  | _, [] => some []
  | skip + 1, _ :: bs => scan step skip bs
  | 0, b :: bs => (step b bs).bind fun r =>
    (scan step (bs.length - r.2.length) bs).map (r.1 :: ·)

def processPrintfBackslashEscapes (bytes : List Char) : Option (List Char) :=
  (scan escapeStep 0 bytes).map List.flatten

/-! ## 2. The parts of a format -/

structure Spec where
  leftAlign : Bool
  zeroPad : Bool
  width : Nat
  precision : Option Nat
  conv : Char
  deriving DecidableEq, Repr

inductive Item where
  | text (c : Char)
  | spec (s : Spec)
  deriving DecidableEq, Repr

def printfParseFlags (left zero : Bool) : List Char → Bool × Bool × List Char
  | [] => (left, zero, [])
  | b :: bs =>
    if b = '-' then printfParseFlags true zero bs
    else if b = '0' ∧ left = false then printfParseFlags left true bs
    else (left, zero, b :: bs)

def printfParseDigits (value : Nat) : List Char → Option (Nat × List Char)
  | [] => some (value, [])
  | b :: bs =>
    if b.isDigit then
      let value' := value * 10 + (b.toNat - '0'.toNat)
      if value' < 2 ^ 64 then printfParseDigits value' bs else none
    else some (value, b :: bs)

def printfParsePrecision : List Char → Option (Option Nat × List Char)
  | '.' :: bs => (printfParseDigits 0 bs).map fun r => (some r.1, r.2)
  | bs => some (none, bs)

/-- `printf_format_spec` up to the conversion. -/
def formatSpec (bs : List Char) : Option (Item × List Char) :=
  let (left, zero, bs) := printfParseFlags false false bs
  (printfParseDigits 0 bs).bind fun w => (printfParsePrecision w.2).map fun p =>
    match p.2 with
    | [] => (.text '%', [])
    | conv :: bs => (.spec ⟨left, zero, w.1, p.1, conv⟩, bs)

/-- What a turn of `printf_format_once` reads. -/
def formatStep (b : Char) (bs : List Char) : Option (Item × List Char) :=
  match bs with
  | [] => some (.text b, [])
  | b' :: bs' =>
    if b = '%' then if b' = '%' then some (.text '%', bs') else formatSpec bs
    else if b = '\\' then (printfEscape b' bs').map fun r => (.text r.1, r.2)
    else some (.text b, bs)

/-- The parts of a format. -/
def formatItems (bytes : List Char) : Option (List Item) := scan formatStep 0 bytes

/-! ## 3. The builtin -/

def consumes (conv : Char) : Bool := ['s', 'd', 'x', 'o', 'f', 'c', 'b', 'q'].contains conv

/-- `arg_str.parse::<i64>().unwrap_or(0)`. -/
def argNumber (arg : List Char) : Int := (Braces.parseI64 arg).getD 0

/-- The sign and the digits of a signed number. -/
def decimal (n : Int) : List Char :=
  (if n < 0 then ['-'] else []) ++ Nat.toDigits 10 n.natAbs

variable (formatFloat : List Char → Option Nat → List Char)

/-- `printf_convert`; the bytes of its text. -/
def printfConvert (conv : Char) (arg : List Char) (precision : Option Nat) :
    Option (List Char) :=
  match conv with
  | 's' =>
    match precision with
    | some prec =>
      if prec < (Utf8.encode arg).length then
        if Utf8.isCharBoundary ((Utf8.encode arg).drop prec) then
          some ((Utf8.encode arg).take prec)
        else none
      else some (Utf8.encode arg)
    | none => some (Utf8.encode arg)
  | 'd' => some (decimal (argNumber arg))
  | 'x' => some (Nat.toDigits 16 (argNumber arg % 2 ^ 64).toNat)
  | 'o' => some (Nat.toDigits 8 (argNumber arg % 2 ^ 64).toNat)
  | 'f' => some (formatFloat arg precision)
  | 'c' => some (Utf8.encode (arg.take 1))
  | 'b' => (processPrintfBackslashEscapes (Utf8.encode arg)).map Utf8.encode
  | 'q' => some (Utf8.encode (ShellQuote.shellQuote arg))
  | _ => some ('%' :: Utf8.encodeChar conv)

def printfApplyWidth (formatted : List Char) (s : Spec) : List Char :=
  if s.width = 0 ∨ s.width ≤ formatted.length then formatted
  else
    let padding := s.width - formatted.length
    if s.leftAlign then formatted ++ List.replicate padding ' '
    else List.replicate padding (if s.zeroPad then '0' else ' ') ++ formatted

/-- `printf_format_once` from the parts on. -/
def printItems (args : List (List Char)) : List Item → Nat → Option (List Char × Nat)
  | [], idx => some ([], idx)
  | .text c :: items, idx =>
    (printItems args items idx).map fun r => (Utf8.encodeChar c ++ r.1, r.2)
  | .spec s :: items, idx =>
    (printfConvert formatFloat s.conv (args[idx]?.getD []) s.precision).bind fun formatted =>
      (printItems args items (if consumes s.conv then idx + 1 else idx)).map fun r =>
        (printfApplyWidth formatted s ++ r.1, r.2)

def printfFormatOnce (bytes : List Char) (args : List (List Char)) (idx : Nat) :
    Option (List Char × Nat) :=
  (formatItems bytes).bind fun items => printItems formatFloat args items idx

/-- The loop of `builtin_printf`; the first number bounds the passes. -/
def printfLoop (bytes : List Char) (args : List (List Char)) : Nat → Nat → Option (List Char)
  | 0, _ => none
  | n + 1, start => (printfFormatOnce formatFloat bytes args start).bind fun r =>
    if r.2 = start ∨ args.length ≤ r.2 then some r.1
    else (printfLoop bytes args n r.2).map (r.1 ++ ·)

/-- What `printf` writes to its output and to the error output, and its status. -/
structure Outcome where
  stdout : List Char
  stderr : String
  status : Nat
  deriving DecidableEq, Repr

/-- The operands, behind the name and a leading `--`. -/
def operands : List (List Char) → List (List Char)
  | [] => []
  | _ :: rest => if rest.head? = some ['-', '-'] then rest.tail else rest

def builtinPrintf (argv : List (List Char)) : Option Outcome :=
  match operands argv with
  | [] => some ⟨[], "printf: usage: printf format [arguments]\n", 1⟩
  | format :: args =>
    (printfLoop formatFloat (Utf8.encode format) args (args.length + 1) 0).map (⟨·, "", 0⟩)

/-! ## 4. The utility of POSIX -/

/-- The digits of a base that a text begins with. -/
def leadingDigits (base : Nat) : List Char → List Nat
  | [] => []
  | c :: cs =>
    match (hexDigit c).filter (· < base) with
    | some digit => digit :: leadingDigits base cs
    | none => []

def valueOf (base : Nat) (digits : List Nat) : Nat := digits.foldl (· * base + ·) 0

/-- What a text stands for at one place: a character, or the byte of an escape. -/
inductive Piece where
  | char (c : Char)
  | code (n : Nat)
  deriving DecidableEq, Repr

def Piece.bytes : Piece → List Char
  | .char c => Utf8.encodeChar c
  | .code n => [Char.ofNat (n % 256)]

/-- A number of at most so many digits. -/
def numeral (base count : Nat) (cs : List Char) : Piece × List Char :=
  let digits := leadingDigits base (cs.take count)
  (.code (valueOf base digits), cs.drop digits.length)

def controlLetter : Char → Option Char
  | '\\' => some '\\'
  | 'a' => some '\x07'
  | 'b' => some '\x08'
  | 'f' => some '\x0c'
  | 'n' => some '\n'
  | 'r' => some '\r'
  | 't' => some '\t'
  | 'v' => some '\x0b'
  | _ => none

/-- An escape behind its backslash; in an argument a zero stands before the digits. -/
def posixEscape (inArgument : Bool) (c : Char) (cs : List Char) : Option (Piece × List Char) :=
  match controlLetter c with
  | some d => some (.char d, cs)
  | none =>
    if isOctalDigit c then some (numeral 8 3 (if inArgument ∧ c = '0' then cs else c :: cs))
    else if c = 'x' then some (numeral 16 2 cs)
    else none

/-- A text read part by part; the number bounds the parts. -/
def readAll {α : Type} (read : Char → List Char → α × List Char) : Nat → List Char → List α
  | n + 1, c :: cs => (read c cs).1 :: readAll read n (read c cs).2
  | _, _ => []

/-- A turn over an argument of `%b`; nothing stands for the end that `\c` makes. -/
def argumentPart (c : Char) (cs : List Char) : List (Option Piece) × List Char :=
  match cs with
  | [] => ([some (.char c)], [])
  | d :: rest =>
    if c = '\\' then
      match posixEscape true d rest with
      | some r => ([some r.1], r.2)
      | none => (if d = 'c' then [none] else [some (.char '\\'), some (.char d)], rest)
    else ([some (.char c)], cs)

def posixUnescape (arg : List Char) : List (Option Piece) :=
  (readAll argumentPart arg.length arg).flatten

def isFlag (c : Char) : Bool := c = '-' ∨ c = '0'

/-- A conversion of a format, which may end before the letter. -/
structure Conversion where
  flags : List Char
  width : Nat
  precision : Option Nat
  conv : Option Char
  isFlag_of_mem : ∀ c ∈ flags, isFlag c = true

def Conversion.leftAlign (c : Conversion) : Bool := c.flags.contains '-'

/-- The zeros are ignored where the text stands on the left. -/
def Conversion.zeroPad (c : Conversion) : Bool := c.flags.contains '0' && !c.leftAlign

inductive Part where
  | piece (p : Piece)
  | conversion (c : Conversion)

/-- The digits behind a point. -/
def posixPrecision (cs : List Char) : Option (List Nat) :=
  if cs.head? = some '.' then some (leadingDigits 10 cs.tail) else none

/-- A conversion behind its `%`. -/
def posixConversion (cs : List Char) : Conversion × List Char :=
  let flags := cs.takeWhile isFlag
  let rest := cs.dropWhile isFlag
  let width := leadingDigits 10 rest
  let rest := rest.drop width.length
  let precision := (posixPrecision rest).map (valueOf 10)
  let rest := (posixPrecision rest).elim rest fun digits => rest.tail.drop digits.length
  (⟨flags, valueOf 10 width, precision, rest.head?,
    fun _ h => List.mem_takeWhile_imp h⟩, rest.tail)

/-- A turn over a format; what POSIX leaves open is as in the source. -/
def formatPart (c : Char) (cs : List Char) : Part × List Char :=
  match cs with
  | [] => (.piece (.char c), [])
  | d :: rest =>
    if c = '%' then
      if d = '%' then (.piece (.char '%'), rest)
      else (.conversion (posixConversion cs).1, (posixConversion cs).2)
    else if c = '\\' then
      match posixEscape false d rest with
      | some r => (.piece r.1, r.2)
      | none => (.piece (.char '\\'), cs)
    else (.piece (.char c), cs)

/-- The parts of a format. -/
def posixFormat (format : List Char) : List Part := readAll formatPart format.length format

/-- A number as a constant of C, or the code of the character behind a quote: the value of an
    argument as far as it goes, and what is left of it. -/
def numericValue (arg : List Char) : Int × List Char :=
  match arg with
  | '\'' :: c :: _ => (c.toNat, [])
  | '"' :: c :: _ => (c.toNat, [])
  | _ =>
    let t := arg.dropWhile fun c => c == ' ' || (9 ≤ c.toNat && c.toNat ≤ 13)
    let u := if t.head? = some '-' ∨ t.head? = some '+' then t.tail else t
    let (base, v) :=
      if (u.take 2 = ['0', 'x'] ∨ u.take 2 = ['0', 'X']) ∧ leadingDigits 16 (u.drop 2) ≠ [] then
        (16, u.drop 2)
      else if u.head? = some '0' then (8, u) else (10, u)
    let digits := leadingDigits base v
    let n := valueOf base digits
    (if t.head? = some '-' then -(n : Int) else n,
      if digits = [] then arg else v.drop digits.length)

/-- Numbers out of range count as the nearest one. -/
def signedValue (arg : List Char) : Int := max (-2 ^ 63) (min (numericValue arg).1 (2 ^ 63 - 1))

def isSigned (arg : List Char) : Bool :=
  (numericValue arg).2 = [] ∧ signedValue arg = (numericValue arg).1

def unsignedValue (arg : List Char) : Nat :=
  if (numericValue arg).1.natAbs < 2 ^ 64 then ((numericValue arg).1 % 2 ^ 64).toNat
  else 2 ^ 64 - 1

def isUnsigned (arg : List Char) : Bool :=
  (numericValue arg).2 = [] ∧ (numericValue arg).1.natAbs < 2 ^ 64

def pad (c : Conversion) (fill : Char) (text : List Char) : List Char :=
  let padding := c.width - text.length
  if c.leftAlign then text ++ List.replicate padding ' ' else List.replicate padding fill ++ text

def posixPad (c : Conversion) (text : List Char) : List Char :=
  pad c (if c.zeroPad then '0' else ' ') text

/-- At least as many digits as the precision says, none for a zero of precision 0. -/
def posixDigits (precision : Option Nat) (digits : List Char) : List Char :=
  match precision with
  | none => digits
  | some p =>
    if p = 0 ∧ digits = ['0'] then [] else List.replicate (p - digits.length) '0' ++ digits

/-- The zeros of the flag stand behind the sign, and only without a precision. -/
def posixInteger (c : Conversion) (sign digits : List Char) : List Char :=
  if c.zeroPad ∧ c.precision = none then
    sign ++ List.replicate (c.width - (sign ++ digits).length) '0' ++ digits
  else pad c ' ' (sign ++ posixDigits c.precision digits)

def posixCut (precision : Option Nat) (text : List Char) : List Char :=
  precision.elim text text.take

/-- What the utility does: it writes a byte, reports an argument that is no number, or stops. -/
inductive Act where
  | write (byte : Char)
  | report
  | stop
  deriving DecidableEq, Repr

def Act.byte : Act → Option Char
  | .write byte => some byte
  | _ => none

def numberActs (isNumber : Bool) (text : List Char) : List Act :=
  (if isNumber then [] else [.report]) ++ text.map .write

/-- The bytes of an argument of `%b` up to its end. -/
def unescapedBytes (arg : List Char) : List Char :=
  ((posixUnescape arg).takeWhile Option.isSome).flatMap (·.elim [] Piece.bytes)

/-- What a conversion does with its argument. -/
def posixConvert (c : Conversion) (arg : List Char) : List Act :=
  match c.conv with
  | none => [.write '%']
  | some 's' => (posixPad c (posixCut c.precision (Utf8.encode arg))).map .write
  | some 'd' => numberActs (isSigned arg) (posixInteger c (if signedValue arg < 0 then ['-'] else [])
      (Nat.toDigits 10 (signedValue arg).natAbs))
  | some 'x' => numberActs (isUnsigned arg) (posixInteger c [] (Nat.toDigits 16 (unsignedValue arg)))
  | some 'o' => numberActs (isUnsigned arg) (posixInteger c [] (Nat.toDigits 8 (unsignedValue arg)))
  | some 'f' => (posixPad c (formatFloat arg c.precision)).map .write
  | some 'c' => (posixPad c (Utf8.encode (arg.take 1))).map .write
  | some 'b' => (posixPad c (posixCut c.precision (unescapedBytes arg))).map .write ++
      if (posixUnescape arg).contains none then [.stop] else []
  | some 'q' => (posixPad c (Utf8.encode (ShellQuote.shellQuote arg))).map .write
  | some conv => (posixPad c ('%' :: Utf8.encodeChar conv)).map .write

/-- One use of the format; an argument that is missing is empty. -/
def posixPass : List Part → List (List Char) → List Act
  | [], _ => []
  | .piece p :: parts, args => p.bytes.map .write ++ posixPass parts args
  | .conversion c :: parts, args =>
    posixConvert formatFloat c (args.head?.getD []) ++
      posixPass parts (if c.conv.any consumes then args.tail else args)

/-- The number of arguments that one use of a format takes. -/
def taken : List Part → Nat
  | [] => 0
  | .piece _ :: parts => taken parts
  | .conversion c :: parts => taken parts + if c.conv.any consumes then 1 else 0

/-- The format is used once, and again while arguments are left that it takes. -/
def passes (parts : List Part) (args : List (List Char)) : Nat :=
  if taken parts = 0 then 1 else max 1 ((args.length + taken parts - 1) / taken parts)

def posixPrintf (format : List Char) (args : List (List Char)) : List Act :=
  (List.range (passes (posixFormat format) args)).flatMap fun p =>
    posixPass formatFloat (posixFormat format) (args.drop (p * taken (posixFormat format)))

/-- An outcome shows what was done up to the first stop; a report goes to the error output and
    into the status. -/
structure Outcome.Shows (outcome : Outcome) (acts : List Act) : Prop where
  stdout : outcome.stdout = (acts.takeWhile (· ≠ .stop)).filterMap Act.byte
  status : outcome.status = 0 ↔ .report ∉ acts.takeWhile (· ≠ .stop)
  stderr : outcome.stderr = "" ↔ .report ∉ acts.takeWhile (· ≠ .stop)

/-! ## 5. Where the two agree -/

/-- The code of an escape is ASCII. -/
def Piece.Fits : Piece → Prop
  | .char _ => True
  | .code n => n < 0x80

def Piece.letter : Piece → Char
  | .char c => c
  | .code n => Char.ofNat n

/-- No `-` stands behind a zero that stands behind another `-`, and the numbers fit a word. -/
structure Conversion.Fits (c : Conversion) : Prop where
  flags : '-' ∉ (c.flags.dropWhile (· = '0')).dropWhile (· = '-')
  width : c.width < 2 ^ 64
  precision : ∀ p ∈ c.precision, p < 2 ^ 64

def Part.Fits : Part → Prop
  | .piece p => p.Fits
  | .conversion c => c.Fits

def Conversion.spec (c : Conversion) (conv : Char) : Spec :=
  ⟨c.leftAlign, c.flags.head? = some '0', c.width, c.precision, conv⟩

def Part.item : Part → Item
  | .piece p => .text p.letter
  | .conversion c => c.conv.elim (.text '%') fun conv => .spec (c.spec conv)

/-! ### The format -/

variable {cs rest : List Char}

theorem le_foldl_digits {base value : Nat} (hbase : 0 < base) (digits : List Nat) :
    value ≤ digits.foldl (· * base + ·) value := by
  induction digits generalizing value with
  | nil => exact Nat.le_refl _
  | cons d digits ih =>
    exact Nat.le_trans (Nat.le_add_right_of_le (Nat.le_mul_of_pos_right _ hbase)) ih

/-- The digits of the bases up to ten. -/
theorem filter_hexDigit {base : Nat} (hbase : base ≤ 10) (c : Char) :
    (hexDigit c).filter (· < base) =
      if 48 ≤ c.toNat ∧ c.toNat < 48 + base then some (c.toNat - '0'.toNat) else none := by
  have hzero : '0'.toNat = 48 := rfl
  have ha : 'a'.toNat = 97 := rfl
  have hA : 'A'.toNat = 65 := rfl
  have hle (a b : Char) : a ≤ b ↔ a.toNat ≤ b.toNat := Iff.rfl
  have hnine : '9'.toNat = 57 := rfl
  unfold hexDigit
  simp only [hle, hzero, hnine, ha, hA]
  split
  case isTrue h =>
    rw [Option.filter_some]
    by_cases hd : c.toNat - 48 < base
    · rw [if_pos (decide_eq_true hd), if_pos ⟨h.1, by omega⟩]
    · rw [if_neg (by simpa using hd), if_neg (by omega)]
  case isFalse h =>
    rw [if_neg (c := 48 ≤ c.toNat ∧ c.toNat < 48 + base) (by omega)]
    split
    · rw [Option.filter_some, if_neg (by simp; omega)]
    · split
      · rw [Option.filter_some, if_neg (by simp; omega)]
      · rfl

theorem digit_ten (c : Char) :
    (hexDigit c).filter (· < 10) = if c.isDigit then some (c.toNat - '0'.toNat) else none := by
  rw [filter_hexDigit (Nat.le_refl 10)]
  have hiff : 48 ≤ c.toNat ∧ c.toNat < 48 + 10 ↔ c.isDigit = true := by
    simp only [Char.isDigit, Bool.and_eq_true, decide_eq_true_eq, ge_iff_le,
      UInt32.le_iff_toNat_le]
    exact and_congr_right fun _ => Nat.lt_succ_iff
  simp only [hiff]

theorem digit_eight (c : Char) :
    (hexDigit c).filter (· < 8) =
      if isOctalDigit c then some (c.toNat - '0'.toNat) else none := by
  rw [filter_hexDigit (by decide)]
  have hiff : 48 ≤ c.toNat ∧ c.toNat < 48 + 8 ↔ isOctalDigit c = true := by
    rw [isOctalDigit, decide_eq_true_eq]
    exact and_congr_right fun _ => Nat.lt_succ_iff
  simp only [hiff]

theorem digit_sixteen (c : Char) : (hexDigit c).filter (· < 16) = hexDigit c := by
  have hle (a b : Char) : a ≤ b ↔ a.toNat ≤ b.toNat := Iff.rfl
  have hval : '0'.toNat = 48 ∧ '9'.toNat = 57 ∧ 'a'.toNat = 97 ∧ 'f'.toNat = 102 ∧
    'A'.toNat = 65 ∧ 'F'.toNat = 70 := by decide
  have hlt : ∀ d ∈ hexDigit c, d < 16 := by
    intro d hd
    unfold hexDigit at hd
    simp only [hle] at hd
    split at hd
    · cases hd
      omega
    · split at hd
      · cases hd
        omega
      · split at hd <;> cases hd
        omega
  cases hd : hexDigit c with
  | none => rfl
  | some d => rw [Option.filter_some, if_pos (decide_eq_true (hlt d hd))]

/-- Digits are read to their end where the number fits a word. -/
theorem parseDigits_eq {value : Nat}
    (h : (leadingDigits 10 cs).foldl (· * 10 + ·) value < 2 ^ 64) :
    printfParseDigits value cs = some ((leadingDigits 10 cs).foldl (· * 10 + ·) value,
      cs.drop (leadingDigits 10 cs).length) := by
  induction cs generalizing value with
  | nil => rfl
  | cons c cs ih =>
    rw [printfParseDigits]
    rw [leadingDigits, digit_ten] at h ⊢
    cases hc : c.isDigit with
    | false => simp
    | true =>
      simp only [hc, if_true, List.foldl_cons] at h
      have hval := Nat.lt_of_le_of_lt (le_foldl_digits (by decide) (leadingDigits 10 cs)) h
      simp only [if_true, if_pos hval, ih h, List.foldl_cons, List.length_cons,
        List.drop_succ_cons]

theorem parseEchoOctal_eq {n value : Nat}
    (h : (leadingDigits 8 (cs.take n)).foldl (· * 8 + ·) value < 256) :
    parseEchoOctal n value cs =
      some (Char.ofNat ((leadingDigits 8 (cs.take n)).foldl (· * 8 + ·) value),
        cs.drop (leadingDigits 8 (cs.take n)).length) := by
  induction cs generalizing n value with
  | nil => cases n <;> rfl
  | cons c cs ih =>
    cases n with
    | zero => rfl
    | succ n =>
      rw [parseEchoOctal]
      rw [List.take_succ_cons, leadingDigits, digit_eight] at h ⊢
      cases hc : isOctalDigit c with
      | false => simp
      | true =>
        simp only [hc, if_true, List.foldl_cons] at h
        have hval := Nat.lt_of_le_of_lt
          (le_foldl_digits (by decide) (leadingDigits 8 (cs.take n))) h
        simp only [if_true, if_pos hval, ih h, List.foldl_cons, List.length_cons,
          List.drop_succ_cons]

theorem parseHexEscape_eq (n value : Nat) (cs : List Char) :
    parseHexEscape n value cs =
      (Char.ofNat ((leadingDigits 16 (cs.take n)).foldl (· * 16 + ·) value),
        cs.drop (leadingDigits 16 (cs.take n)).length) := by
  induction cs generalizing n value with
  | nil => cases n <;> rfl
  | cons c cs ih =>
    cases n with
    | zero => rfl
    | succ n =>
      rw [parseHexEscape, List.take_succ_cons, leadingDigits, digit_sixteen]
      cases hexDigit c with
      | none => rfl
      | some digit => simp only [ih, List.foldl_cons, List.length_cons, List.drop_succ_cons]

theorem numeral_suffix (base count : Nat) (cs : List Char) : (numeral base count cs).2 <:+ cs :=
  List.drop_suffix _ _

theorem octal_numeral {n : Nat} (h : (numeral 8 n cs).1.Fits) :
    parseEchoOctal n 0 cs = some ((numeral 8 n cs).1.letter, (numeral 8 n cs).2) :=
  parseEchoOctal_eq (Nat.lt_trans h (by decide))

theorem lookup_letterEscapes (c : Char) : letterEscapes.lookup c = controlLetter c := by
  unfold letterEscapes controlLetter
  split
  any_goals rfl
  case h_9 h1 h2 h3 h4 h5 h6 h7 h8 =>
    simp [List.lookup_cons, beq_eq_false_iff_ne.mpr h1, beq_eq_false_iff_ne.mpr h2,
      beq_eq_false_iff_ne.mpr h3, beq_eq_false_iff_ne.mpr h4, beq_eq_false_iff_ne.mpr h5,
      beq_eq_false_iff_ne.mpr h6, beq_eq_false_iff_ne.mpr h7, beq_eq_false_iff_ne.mpr h8]

/-- Bytes that a turn has passed over are skipped. -/
theorem scan_suffix {α : Type} {step : Char → List Char → Option (α × List Char)}
    (h : rest <:+ cs) : scan step (cs.length - rest.length) cs = scan step 0 rest := by
  obtain ⟨read, rfl⟩ := h
  rw [List.length_append, Nat.add_sub_cancel]
  induction read with
  | nil => rfl
  | cons c read ih => exact ih

/-- A text that is read in steps with the same parts. -/
theorem scan_readAll {α β : Type} {read : Char → List Char → α × List Char}
    {step : Char → List Char → Option (β × List Char)} {f : α → β} {Fits : α → Prop}
    (hsuffix : ∀ c cs, (read c cs).2 <:+ cs)
    (hstep : ∀ c cs, Fits (read c cs).1 → step c cs = some (f (read c cs).1, (read c cs).2))
    (n : Nat) (cs : List Char) (hn : cs.length ≤ n) (h : ∀ part ∈ readAll read n cs, Fits part) :
    scan step 0 cs = some ((readAll read n cs).map f) := by
  induction n generalizing cs with
  | zero =>
    obtain rfl := List.length_eq_zero_iff.mp (Nat.le_zero.mp hn)
    rfl
  | succ n ih =>
    cases cs with
    | nil => rfl
    | cons c cs =>
      rw [readAll] at h ⊢
      have hle := (hsuffix c cs).length_le
      rw [scan, hstep c cs (h _ (.head _)), Option.bind_some, scan_suffix (hsuffix c cs),
        ih _ (by rw [List.length_cons] at hn; omega) fun part hp => h part (.tail _ hp)]
      rfl

theorem posixEscape_suffix {inArgument : Bool} {c : Char} {r : Piece × List Char}
    (h : posixEscape inArgument c cs = some r) : r.2 <:+ c :: cs := by
  unfold posixEscape at h
  split at h
  · cases h
    exact List.suffix_cons c cs
  · split at h
    · cases h
      refine (numeral_suffix 8 3 _).trans ?_
      split
      · exact List.suffix_cons c cs
      · exact List.suffix_refl _
    · split at h
      · cases h
        exact (numeral_suffix 16 2 cs).trans (List.suffix_cons c cs)
      · cases h

/-- The escapes of a format. -/
theorem printfEscape_eq {c : Char}
    (h : ∀ r ∈ posixEscape false c cs, r.1.Fits) :
    printfEscape c cs =
      some ((posixEscape false c cs).elim ('\\', c :: cs) fun r => (r.1.letter, r.2)) := by
  rw [printfEscape, lookup_letterEscapes]
  unfold posixEscape at h ⊢
  cases hletter : controlLetter c with
  | some d => rfl
  | none =>
    rw [hletter] at h
    cases hoctal : isOctalDigit c with
    | true =>
      simp only [hoctal, if_true] at h ⊢
      exact octal_numeral (h _ rfl)
    | false =>
      by_cases hx : c = 'x'
      · simp [hx, parseHexEscape_eq, numeral, Piece.letter, valueOf]
      · simp [hx]

/-- What the parts of an argument are to the code. -/
def letters (pieces : List (Option Piece)) : List Char :=
  pieces.flatMap (·.elim [] fun p => [p.letter])

theorem escapeStep_eq {c : Char}
    (h : ∀ piece ∈ (argumentPart c cs).1, ∃ p, piece = some p ∧ p.Fits) :
    escapeStep c cs = some (letters (argumentPart c cs).1, (argumentPart c cs).2) := by
  unfold escapeStep
  unfold argumentPart at h ⊢
  cases cs with
  | nil => rfl
  | cons d rest =>
    by_cases hc : c = '\\'
    · simp only [if_pos hc, lookup_letterEscapes] at h ⊢
      unfold posixEscape at h ⊢
      cases hletter : controlLetter d with
      | some e => rfl
      | none =>
        rw [hletter] at h
        cases hoctal : isOctalDigit d with
        | true =>
          simp only [hoctal, if_true] at h ⊢
          obtain ⟨p, hp, hfits⟩ := h _ (.head _)
          cases hp
          simp only [true_and] at hfits ⊢
          rw [octal_numeral hfits]
          rfl
        | false =>
          by_cases hx : d = 'x'
          · simp [hx, parseHexEscape_eq, numeral, Piece.letter, valueOf, letters]
          · simp only [hoctal, hx, if_false, Bool.false_eq_true] at h ⊢
            by_cases hstop : d = 'c'
            · obtain ⟨p, hp, -⟩ := h none (by simp [hstop])
              cases hp
            · simp [hstop, letters, Piece.letter]
    · simp only [if_neg hc]
      rfl

theorem argumentPart_suffix (c : Char) (cs : List Char) : (argumentPart c cs).2 <:+ cs := by
  unfold argumentPart
  cases cs with
  | nil => exact List.suffix_refl _
  | cons d rest =>
    dsimp only
    split
    · split
      · next r hr => exact posixEscape_suffix hr
      · exact List.suffix_cons d rest
    · exact List.suffix_refl _

theorem Piece.bytes_eq {p : Piece} (h : p.Fits) : p.bytes = Utf8.encodeChar p.letter := by
  cases p with
  | char c => rfl
  | code n =>
    have hn : n < 0x80 := h
    rw [Piece.bytes, Piece.letter, Nat.mod_eq_of_lt (by omega),
      Utf8.encodeChar_of_ascii (by rwa [Utf8.toNat_ofNat (by omega)])]

theorem encode_letters {pieces : List (Option Piece)}
    (h : ∀ piece ∈ pieces, ∃ p, piece = some p ∧ p.Fits) :
    Utf8.encode (letters pieces) = pieces.flatMap (·.elim [] Piece.bytes) := by
  rw [letters, Utf8.encode, List.flatMap_assoc]
  refine List.flatMap_congr fun piece hmem => ?_
  obtain ⟨p, rfl, hp⟩ := h piece hmem
  rw [Option.elim_some, Option.elim_some, Piece.bytes_eq hp, List.flatMap_singleton]

/-- The bytes that the code makes of an argument whose escapes are ASCII. -/
theorem unescape_eq {arg : List Char} (hascii : ∀ c ∈ arg, c.toNat < 0x80)
    (h : ∀ piece ∈ posixUnescape arg, ∃ p, piece = some p ∧ p.Fits) :
    (processPrintfBackslashEscapes (Utf8.encode arg)).map Utf8.encode =
      some (unescapedBytes arg) := by
  have hscan := @scan_readAll _ _ argumentPart escapeStep letters
    (fun pieces => ∀ piece ∈ pieces, ∃ p, piece = some p ∧ p.Fits) argumentPart_suffix
    (fun _ _ hfits => escapeStep_eq hfits) arg.length arg (Nat.le_refl _)
    fun pieces hp piece hmem => h piece (List.mem_flatten.mpr ⟨pieces, hp, hmem⟩)
  have hall : (posixUnescape arg).takeWhile Option.isSome = posixUnescape arg :=
    List.takeWhile_eq_self_iff.mpr fun piece hp => by
      obtain ⟨p, rfl, -⟩ := h piece hp
      rfl
  have hflat : ((readAll argumentPart arg.length arg).map letters).flatten =
      letters (posixUnescape arg) := by
    rw [posixUnescape, letters, List.flatMap_def, List.map_flatten, List.flatten_flatten,
      List.map_map]
    rfl
  rw [processPrintfBackslashEscapes, Utf8.encode_of_ascii hascii, hscan, Option.map_some,
    Option.map_some, hflat, encode_letters h, unescapedBytes, hall]

/-! ### Its conversions -/

/-- The rest of a text behind its flags. -/
theorem dropWhile_flags (p : Char → Bool) (hp : ∀ c, p c = true → isFlag c = true)
    (flags : List Char) (hrest : rest.head?.all (fun c => !isFlag c) = true) :
    (flags ++ rest).dropWhile p = flags.dropWhile p ++ rest := by
  rw [List.dropWhile_append]
  split
  case isFalse => rfl
  case isTrue h =>
    rw [List.isEmpty_iff.mp h, List.nil_append]
    cases rest with
    | nil => rfl
    | cons c rest =>
      have hc : p c = false := by
        have hflag : isFlag c = false := by simpa using hrest
        exact Bool.eq_false_iff.mpr fun h => by simp [hp c h] at hflag
      rw [List.dropWhile_cons_of_neg (by simp [hc])]

theorem parseFlags_left (zero : Bool) (cs : List Char) :
    printfParseFlags true zero cs = (true, zero, cs.dropWhile (· = '-')) := by
  induction cs with
  | nil => rfl
  | cons c cs ih =>
    rw [printfParseFlags]
    by_cases hc : c = '-'
    · rw [if_pos hc, ih, List.dropWhile_cons_of_pos (by simp [hc])]
    · rw [if_neg hc, if_neg (by simp), List.dropWhile_cons_of_neg (by simp [hc])]

theorem parseFlags_eq (zero : Bool) (cs : List Char) :
    printfParseFlags false zero cs =
      (decide ((cs.dropWhile (· = '0')).head? = some '-'),
        zero || decide (cs.head? = some '0'), (cs.dropWhile (· = '0')).dropWhile (· = '-')) := by
  induction cs generalizing zero with
  | nil => simp [printfParseFlags]
  | cons c cs ih =>
    rw [printfParseFlags]
    by_cases hc : c = '-'
    · subst hc
      simp [parseFlags_left]
    · by_cases hzero : c = '0'
      · subst hzero
        simp [ih]
      · simp [hc, hzero]

/-- Zeros that are left of the flags are digits of the width. -/
theorem leadingDigits_zeros {flags : List Char} (h : ∀ c ∈ flags, c = '0') (cs : List Char) :
    leadingDigits 10 (flags ++ cs) =
      List.replicate flags.length 0 ++ leadingDigits 10 cs := by
  induction flags with
  | nil => rfl
  | cons c flags ih =>
    obtain rfl := h c (.head _)
    rw [List.cons_append, leadingDigits, digit_ten]
    simp [ih fun c hc => h c (.tail _ hc), List.replicate_succ]

theorem foldl_zeros (n : Nat) : (List.replicate n 0).foldl (· * 10 + ·) 0 = 0 := by
  induction n with
  | zero => rfl
  | succ n ih => exact ih

/-- The flags that the code reads; zeros that are left belong to the width. -/
theorem formatFlags_eq {flags : List Char} (hflags : ∀ c ∈ flags, isFlag c = true)
    (hrest : rest.head?.all (fun c => !isFlag c) = true)
    (h : '-' ∉ (flags.dropWhile (· = '0')).dropWhile (· = '-')) :
    ∃ zeros, (∀ c ∈ zeros, c = '0') ∧ printfParseFlags false false (flags ++ rest) =
      (flags.contains '-', decide (flags.head? = some '0'), zeros ++ rest) := by
  have hmem : ∀ c ∈ flags, c ≠ '-' → c = '0' := fun c hc hne =>
    (of_decide_eq_true (hflags c hc)).resolve_left hne
  have hhead : ∀ c ∈ rest.head?, c ≠ '-' ∧ c ≠ '0' := fun c hc => by
    rw [hc] at hrest
    simpa [isFlag] using hrest
  refine ⟨(flags.dropWhile (· = '0')).dropWhile (· = '-'),
    fun c hc => hmem c ?_ fun hne => h (by rwa [hne] at hc), ?_⟩
  · exact (List.dropWhile_sublist _).subset ((List.dropWhile_sublist _).subset hc)
  rw [parseFlags_eq, dropWhile_flags _ (by simp +contextual [isFlag]) _ hrest,
    dropWhile_flags _ (by simp +contextual [isFlag]) _ hrest, Bool.false_or]
  congr 1
  · cases hleft : flags.dropWhile (· = '0') with
    | nil =>
      have hzeros := List.dropWhile_eq_nil_iff.mp hleft
      have hno : flags.contains '-' = false := by
        rw [Bool.eq_false_iff]
        exact fun hc => absurd (hzeros _ (List.contains_iff_mem.mp hc)) (by decide)
      rw [hno, List.nil_append, decide_eq_false_iff_not]
      exact fun hc => (hhead _ hc).1 rfl
    | cons c left =>
      have hc : c ∈ flags := (List.dropWhile_sublist _).mem (hleft ▸ List.mem_cons_self)
      have hne : c ≠ '0' := fun heq => by
        have hhead := List.head?_dropWhile_not (fun x : Char => decide (x = '0')) flags
        rw [hleft, heq] at hhead
        cases hhead
      obtain rfl : c = '-' := (of_decide_eq_true (hflags c hc)).resolve_right hne
      rw [List.cons_append, List.head?_cons, decide_eq_true rfl, List.contains_iff_mem.mpr hc]
  · congr 1
    cases flags with
    | nil =>
      have hno : rest.head? ≠ some '0' := fun hc => (hhead _ hc).2 rfl
      rw [List.nil_append, decide_eq_false hno]
      rfl
    | cons c flags => rfl

theorem parsePrecision_eq (h : ∀ p ∈ (posixPrecision cs).map (valueOf 10), p < 2 ^ 64) :
    printfParsePrecision cs = some ((posixPrecision cs).map (valueOf 10),
      (posixPrecision cs).elim cs fun digits => cs.tail.drop digits.length) := by
  unfold posixPrecision at h ⊢
  cases cs with
  | nil => rfl
  | cons c cs =>
    by_cases hc : c = '.'
    · subst hc
      have hp : (leadingDigits 10 cs).foldl (· * 10 + ·) 0 < 2 ^ 64 := h _ rfl
      rw [printfParsePrecision, parseDigits_eq hp]
      rfl
    · have hhead : (c :: cs).head? ≠ some '.' := fun h => hc (Option.some.inj h)
      rw [if_neg hhead, printfParsePrecision]
      · rfl
      · exact fun _ h => hc (List.cons.inj h).1

theorem formatSpec_eq (h : (posixConversion cs).1.Fits) :
    formatSpec cs =
      some ((Part.conversion (posixConversion cs).1).item, (posixConversion cs).2) := by
  have hrest : (cs.dropWhile isFlag).head?.all (fun c => !isFlag c) = true := by
    have hhead := List.head?_dropWhile_not isFlag cs
    cases hd : (cs.dropWhile isFlag).head? with
    | none => rfl
    | some c =>
      rw [hd] at hhead
      simp [hhead]
  obtain ⟨zeros, hzeros, hflags⟩ :=
    formatFlags_eq (fun _ hc => List.mem_takeWhile_imp hc) hrest h.flags
  rw [List.takeWhile_append_dropWhile] at hflags
  have hvalue : (leadingDigits 10 (zeros ++ cs.dropWhile isFlag)).foldl (· * 10 + ·) 0 =
      valueOf 10 (leadingDigits 10 (cs.dropWhile isFlag)) := by
    rw [leadingDigits_zeros hzeros, List.foldl_append, foldl_zeros, valueOf]
  have hbehind : (zeros ++ cs.dropWhile isFlag).drop
      (leadingDigits 10 (zeros ++ cs.dropWhile isFlag)).length =
      (cs.dropWhile isFlag).drop (leadingDigits 10 (cs.dropWhile isFlag)).length := by
    rw [leadingDigits_zeros hzeros, List.length_append, List.length_replicate,
      List.drop_append, Nat.add_sub_cancel_left, List.drop_eq_nil_of_le (Nat.le_add_right _ _),
      List.nil_append]
  have hdigits := @parseDigits_eq (zeros ++ cs.dropWhile isFlag) 0 (hvalue ▸ h.width)
  rw [hvalue, hbehind] at hdigits
  rw [formatSpec, hflags]
  dsimp only
  rw [hdigits, Option.bind_some, parsePrecision_eq h.precision, Option.map_some]
  dsimp only [posixConversion, Part.item]
  split <;> rename_i hconv <;> simp only [hconv] <;> rfl

theorem posixConversion_suffix (cs : List Char) : (posixConversion cs).2 <:+ cs := by
  have hflags : cs.dropWhile isFlag <:+ cs := List.dropWhile_suffix _
  refine (List.tail_suffix _).trans ?_
  cases posixPrecision ((cs.dropWhile isFlag).drop _) with
  | some digits =>
    exact (List.drop_suffix _ _).trans ((List.tail_suffix _).trans
      ((List.drop_suffix _ _).trans hflags))
  | none => exact (List.drop_suffix _ _).trans hflags

theorem formatPart_suffix (c : Char) (cs : List Char) : (formatPart c cs).2 <:+ cs := by
  unfold formatPart
  cases cs with
  | nil => exact List.suffix_refl _
  | cons d rest =>
    dsimp only
    split
    · split
      · exact List.suffix_cons d rest
      · exact posixConversion_suffix _
    · split
      · split
        · next r hr => exact posixEscape_suffix hr
        · exact List.suffix_refl _
      · exact List.suffix_refl _

theorem formatStep_eq {c : Char} (h : (formatPart c cs).1.Fits) :
    formatStep c cs = some ((formatPart c cs).1.item, (formatPart c cs).2) := by
  unfold formatStep
  unfold formatPart at h ⊢
  cases cs with
  | nil => rfl
  | cons d rest =>
    by_cases hpercent : c = '%'
    · simp only [if_pos hpercent] at h ⊢
      by_cases hd : d = '%'
      · simp only [if_pos hd]
        rfl
      · simp only [if_neg hd] at h ⊢
        exact formatSpec_eq h
    · simp only [if_neg hpercent] at h ⊢
      by_cases hc : c = '\\'
      · simp only [if_pos hc] at h ⊢
        cases hescape : posixEscape false d rest with
        | none =>
          rw [printfEscape_eq (by simp [hescape]), hescape]
          rfl
        | some r =>
          rw [hescape] at h
          have hfits : ∀ r' ∈ some r, r'.1.Fits := by
            rintro _ ⟨⟩
            exact h
          rw [printfEscape_eq (hescape ▸ hfits), hescape]
          rfl
      · simp only [if_neg hc]
        rfl

/-- The parts of an ASCII format that the code reads as they are meant. -/
theorem formatItems_eq {format : List Char} (hascii : ∀ c ∈ format, c.toNat < 0x80)
    (h : ∀ part ∈ posixFormat format, part.Fits) :
    formatItems (Utf8.encode format) = some ((posixFormat format).map Part.item) := by
  rw [formatItems, Utf8.encode_of_ascii hascii]
  exact scan_readAll formatPart_suffix (fun _ _ => formatStep_eq) _ _ (Nat.le_refl _) h

/-! ### The arguments -/

/-- The precision adds and removes no digit, and where the flag pads with zeros there is neither
    a sign nor a precision. -/
structure MeetsInteger (c : Conversion) (sign digits : List Char) : Prop where
  precision : ∀ p ∈ c.precision, p ≤ digits.length ∧ (p = 0 → digits ≠ ['0'])
  zero : c.zeroPad = true → (sign ++ digits).length < c.width → sign = [] ∧ c.precision = none

/-- What a conversion asks of its argument. -/
def Meets (c : Conversion) (arg : List Char) : Prop :=
  match c.conv with
  | some 's' => ∀ p ∈ c.precision, p < (Utf8.encode arg).length →
      Utf8.isCharBoundary ((Utf8.encode arg).drop p) = true
  | some 'd' => isSigned arg = true ∧ argNumber arg = signedValue arg ∧
      MeetsInteger c (if signedValue arg < 0 then ['-'] else [])
        (Nat.toDigits 10 (signedValue arg).natAbs)
  | some 'x' => isUnsigned arg = true ∧ (argNumber arg % 2 ^ 64).toNat = unsignedValue arg ∧
      MeetsInteger c [] (Nat.toDigits 16 (unsignedValue arg))
  | some 'o' => isUnsigned arg = true ∧ (argNumber arg % 2 ^ 64).toNat = unsignedValue arg ∧
      MeetsInteger c [] (Nat.toDigits 8 (unsignedValue arg))
  | some 'b' => (∀ c ∈ arg, c.toNat < 0x80) ∧
      (∀ piece ∈ posixUnescape arg, ∃ p, piece = some p ∧ p.Fits) ∧
      ∀ p ∈ c.precision, (unescapedBytes arg).length ≤ p
  | _ => True

/-- Every conversion is met by its argument. -/
def MeetsPass : List Part → List (List Char) → Prop
  | [], _ => True
  | .piece _ :: parts, args => MeetsPass parts args
  | .conversion c :: parts, args =>
    Meets c (args.head?.getD []) ∧ MeetsPass parts (if c.conv.any consumes then args.tail else args)

theorem applyWidth_pad (c : Conversion) (conv : Char) (text : List Char) :
    printfApplyWidth text (c.spec conv) = posixPad c text := by
  have hfill : c.leftAlign = false → c.zeroPad = decide (c.flags.head? = some '0') := by
    intro hleft
    rw [Conversion.zeroPad, hleft, Bool.not_false, Bool.and_true]
    cases hflags : c.flags with
    | nil => rfl
    | cons flag flags =>
      have hmem : flag ∈ c.flags := hflags ▸ List.mem_cons_self
      have hne : flag ≠ '-' := fun heq => by
        rw [Conversion.leftAlign, List.contains_iff_mem.mpr (heq ▸ hmem)] at hleft
        cases hleft
      obtain rfl := (of_decide_eq_true (c.isFlag_of_mem flag hmem)).resolve_left hne
      simp
  rw [printfApplyWidth, posixPad, pad]
  split
  case isTrue h =>
    have hzero : c.width - text.length = 0 := by
      change c.width = 0 ∨ c.width ≤ text.length at h
      omega
    simp [hzero]
  case isFalse =>
    cases hleft : c.leftAlign with
    | true => simp [Conversion.spec, hleft]
    | false => simp [Conversion.spec, hleft, hfill hleft]

theorem applyWidth_integer {c : Conversion} {conv : Char} {sign digits : List Char}
    (h : MeetsInteger c sign digits) :
    printfApplyWidth (sign ++ digits) (c.spec conv) = posixInteger c sign digits := by
  have hdigits : posixDigits c.precision digits = digits := by
    cases hp : c.precision with
    | none => rfl
    | some p =>
      obtain ⟨hle, hne⟩ := h.precision p hp
      rw [posixDigits, if_neg fun hz => hne hz.1 hz.2, Nat.sub_eq_zero_of_le hle]
      rfl
  rw [applyWidth_pad, posixInteger, hdigits]
  by_cases hwide : (sign ++ digits).length < c.width
  · split
    case isTrue hzero =>
      obtain ⟨rfl, -⟩ := h.zero hzero.1 hwide
      have hleft : c.leftAlign = false := by
        have hpad := hzero.1
        rw [Conversion.zeroPad, Bool.and_eq_true] at hpad
        simpa using hpad.2
      simp [posixPad, pad, hzero.1, hleft]
    case isFalse hno =>
      have hpad : c.zeroPad = false :=
        Bool.eq_false_iff.mpr fun hpad => hno ⟨hpad, (h.zero hpad hwide).2⟩
      simp [posixPad, hpad]
  · have hpad : c.width - (sign ++ digits).length = 0 := by omega
    simp only [posixPad, pad, hpad, List.replicate_zero, List.append_nil, List.nil_append,
      ite_self]

section Run

variable {formatFloat}

/-- A conversion that is met prints what it should. -/
theorem convert_eq {c : Conversion} {conv : Char} {arg : List Char} (hconv : c.conv = some conv)
    (h : Meets c arg) :
    ∃ text, printfConvert formatFloat conv arg c.precision = some text ∧
      (printfApplyWidth text (c.spec conv)).map .write = posixConvert formatFloat c arg := by
  obtain ⟨flags, width, precision, letter, hflags⟩ := c
  obtain rfl : letter = some conv := hconv
  unfold Meets at h
  split at h
  case h_1 heq =>
    obtain rfl : conv = 's' := Option.some.inj heq
    refine ⟨posixCut precision (Utf8.encode arg), ?_, ?_⟩
    · cases precision with
      | none => rfl
      | some p =>
        rw [printfConvert]
        split
        case isTrue hp => rw [if_pos (h p rfl hp)]; rfl
        case isFalse hp =>
          rw [posixCut, Option.elim_some, List.take_of_length_le (Nat.le_of_not_lt hp)]
    · rw [applyWidth_pad]
      rfl
  case h_2 heq =>
    obtain rfl : conv = 'd' := Option.some.inj heq
    refine ⟨_, rfl, ?_⟩
    rw [posixConvert, numberActs, h.1, h.2.1, decimal, applyWidth_integer h.2.2]
    rfl
  case h_3 heq =>
    obtain rfl : conv = 'x' := Option.some.inj heq
    refine ⟨_, rfl, ?_⟩
    rw [posixConvert, numberActs, h.1, h.2.1, ← applyWidth_integer h.2.2]
    rfl
  case h_4 heq =>
    obtain rfl : conv = 'o' := Option.some.inj heq
    refine ⟨_, rfl, ?_⟩
    rw [posixConvert, numberActs, h.1, h.2.1, ← applyWidth_integer h.2.2]
    rfl
  case h_5 heq =>
    obtain rfl : conv = 'b' := Option.some.inj heq
    obtain ⟨hascii, hpieces, hcut⟩ := h
    refine ⟨unescapedBytes arg, unescape_eq hascii hpieces, ?_⟩
    have hsame : posixCut precision (unescapedBytes arg) = unescapedBytes arg := by
      cases precision with
      | none => rfl
      | some p => exact List.take_of_length_le (hcut p rfl)
    have hgoes : (posixUnescape arg).contains none = false :=
      Bool.eq_false_iff.mpr fun hstop => by
        obtain ⟨p, hp, -⟩ := hpieces none (List.contains_iff_mem.mp hstop)
        cases hp
    rw [applyWidth_pad]
    change _ = (posixPad _ (posixCut precision _)).map Act.write ++
      if (posixUnescape arg).contains none then [.stop] else []
    rw [hsame, hgoes, if_neg (by decide), List.append_nil]
  case h_6 hs hd hx ho hb =>
    unfold printfConvert posixConvert
    dsimp only
    split
    any_goals simp_all
    all_goals rw [applyWidth_pad]

/-- A pass whose conversions are met writes what it should. -/
theorem printItems_eq {parts : List Part} {idx : Nat} (hfits : ∀ part ∈ parts, part.Fits)
    (h : MeetsPass parts (args.drop idx)) :
    ∃ text, printItems formatFloat args (parts.map Part.item) idx =
        some (text, idx + taken parts) ∧
      text.map .write = posixPass formatFloat parts (args.drop idx) := by
  induction parts generalizing idx with
  | nil => exact ⟨[], rfl, rfl⟩
  | cons part parts ih =>
    have hparts := fun part hp => hfits part (.tail _ hp)
    cases part with
    | piece p =>
      obtain ⟨text, hrun, htext⟩ := ih hparts h
      refine ⟨p.bytes ++ text, ?_, ?_⟩
      · rw [List.map_cons, Part.item, printItems, hrun, Option.map_some, taken,
          Piece.bytes_eq (hfits _ (.head _))]
      · rw [posixPass, List.map_append, htext]
    | conversion c =>
      obtain ⟨hmeets, hrest⟩ := h
      cases hconv : c.conv with
      | none =>
        rw [hconv] at hrest
        obtain ⟨text, hrun, htext⟩ := ih hparts hrest
        refine ⟨'%' :: text, ?_, ?_⟩
        · rw [List.map_cons, Part.item, hconv, Option.elim_none, printItems, hrun, taken, hconv]
          rfl
        · rw [posixPass, hconv, List.map_cons, htext, posixConvert, hconv]
          rfl
      | some conv =>
        rw [hconv] at hrest
        rw [List.head?_drop] at hmeets
        obtain ⟨out, hout, houtText⟩ := @convert_eq formatFloat _ _ _ hconv hmeets
        have hdrop : (if (some conv).any consumes then (args.drop idx).tail else args.drop idx) =
            args.drop (if consumes conv then idx + 1 else idx) := by
          rw [List.tail_drop]
          exact (apply_ite args.drop _ _ _).symm
        rw [hdrop] at hrest
        obtain ⟨text, hrun, htext⟩ := ih hparts hrest
        refine ⟨printfApplyWidth out (c.spec conv) ++ text, ?_, ?_⟩
        · rw [List.map_cons, Part.item, hconv, Option.elim_some]
          change (printfConvert formatFloat conv (args[idx]?.getD []) c.precision).bind
            (fun formatted => (printItems formatFloat args (parts.map Part.item)
              (if consumes conv then idx + 1 else idx)).map fun r =>
                (printfApplyWidth formatted (c.spec conv) ++ r.1, r.2)) = _
          rw [hout, Option.bind_some, hrun, Option.map_some, taken, hconv]
          cases hc : consumes conv with
          | true => simp [hc, Nat.add_assoc, Nat.add_comm 1]
          | false => simp [hc]
        · rw [posixPass, hconv, hdrop, List.map_append, htext, houtText, List.head?_drop]

/-- Another pass is made exactly where one is left. -/
theorem another_pass {parts : List Part} (h : taken parts ≠ 0) (p : Nat) :
    args.length ≤ (p + 1) * taken parts ↔ passes parts args ≤ p + 1 := by
  have hpos : 0 < taken parts := Nat.pos_of_ne_zero h
  rw [passes, if_neg h, Nat.max_le, Nat.div_le_iff_le_mul_add_pred hpos,
    Nat.mul_comm (taken parts)]
  omega

/-- The passes from one on. -/
theorem printfLoop_eq {bytes : List Char} {parts : List Part}
    (hitems : formatItems bytes = some (parts.map Part.item))
    (hfits : ∀ part ∈ parts, part.Fits) (htaken : taken parts ≠ 0)
    (h : ∀ p < passes parts args, MeetsPass parts (args.drop (p * taken parts)))
    (n p : Nat) (hp : p + n = passes parts args) :
    ∀ fuel, n ≤ fuel → n ≠ 0 →
      ∃ text, printfLoop formatFloat bytes args fuel (p * taken parts) = some text ∧
        text.map .write = (List.range' p n).flatMap fun p =>
          posixPass formatFloat parts (args.drop (p * taken parts)) := by
  induction n generalizing p with
  | zero => exact fun _ _ hne => absurd rfl hne
  | succ n ih =>
    intro fuel hfuel _
    obtain ⟨fuel, rfl⟩ : ∃ f, fuel = f + 1 := ⟨fuel - 1, by omega⟩
    obtain ⟨first, hrun, hfirst⟩ := @printItems_eq _ formatFloat _ _ hfits (h p (by omega))
    rw [printfLoop, printfFormatOnce, hitems, Option.bind_some, hrun, Option.bind_some,
      List.range'_succ, List.flatMap_cons]
    have hnext : p * taken parts + taken parts = (p + 1) * taken parts := by ring
    simp only [hnext, another_pass htaken]
    split
    case isTrue hlast =>
      obtain rfl : n = 0 := by omega
      exact ⟨first, rfl, by rw [hfirst]; simp⟩
    case isFalse hmore =>
      obtain ⟨text, hloop, htext⟩ := ih (p + 1) (by omega) fuel (by omega) (by omega)
      exact ⟨first ++ text, by rw [hloop]; rfl, by rw [List.map_append, hfirst, htext]⟩

theorem passes_le {parts : List Part} : passes parts args ≤ args.length + 1 := by
  rw [passes]
  split
  · omega
  case isFalse h =>
    have hpos : 0 < taken parts := Nat.pos_of_ne_zero h
    refine Nat.max_le.mpr ⟨by omega, (Nat.div_le_iff_le_mul_add_pred hpos).mpr ?_⟩
    have hle : args.length + 1 ≤ taken parts * (args.length + 1) := Nat.le_mul_of_pos_left _ hpos
    omega

/-- What is only written is shown as it is. -/
theorem shows_writes {text : List Char} {acts : List Act} (h : text.map .write = acts) :
    Outcome.Shows ⟨text, "", 0⟩ acts := by
  have hgoes : acts.takeWhile (· ≠ .stop) = acts :=
    List.takeWhile_eq_self_iff.mpr fun act hact => by
      obtain ⟨c, -, rfl⟩ := List.mem_map.mp (h ▸ hact)
      rfl
  have hquiet : Act.report ∉ acts := fun hact => by
    obtain ⟨c, -, hc⟩ := List.mem_map.mp (h ▸ hact)
    cases hc
  refine ⟨?_, ?_, ?_⟩
  · rw [hgoes, ← h, List.filterMap_map]
    exact (List.filterMap_some).symm
  · rw [hgoes]
    exact iff_of_true rfl hquiet
  · rw [hgoes]
    exact iff_of_true rfl hquiet

/-- **Where the format is read as it is meant and every conversion is met, `printf` is the
    utility of POSIX.** -/
theorem builtinPrintf_eq {argv : List (List Char)} {format : List Char}
    {args : List (List Char)} (hargv : operands argv = format :: args)
    (hascii : ∀ c ∈ format, c.toNat < 0x80) (hfits : ∀ part ∈ posixFormat format, part.Fits)
    (h : ∀ p < passes (posixFormat format) args,
      MeetsPass (posixFormat format) (args.drop (p * taken (posixFormat format)))) :
    ∃ outcome, builtinPrintf formatFloat argv = some outcome ∧
      outcome.Shows (posixPrintf formatFloat format args) := by
  have hitems := formatItems_eq hascii hfits
  suffices hloop : ∃ text,
      printfLoop formatFloat (Utf8.encode format) args (args.length + 1) 0 = some text ∧
        text.map .write = posixPrintf formatFloat format args by
    obtain ⟨text, hrun, htext⟩ := hloop
    exact ⟨⟨text, "", 0⟩, by rw [builtinPrintf, hargv]; simp only [hrun, Option.map_some],
      shows_writes htext⟩
  rw [posixPrintf]
  generalize posixFormat format = parts at *
  by_cases htaken : taken parts = 0
  · have hone : passes parts args = 1 := by rw [passes, if_pos htaken]
    have hfirst : MeetsPass parts (args.drop 0) := by
      have := h 0 (by omega)
      rwa [Nat.zero_mul] at this
    obtain ⟨text, hrun, htext⟩ := @printItems_eq _ formatFloat _ _ hfits hfirst
    refine ⟨text, ?_, ?_⟩
    · rw [printfLoop, printfFormatOnce, hitems, Option.bind_some, hrun, Option.bind_some, htaken]
      simp
    · rw [htext, hone]
      simp
  · have hpositive : passes parts args ≠ 0 := by
      rw [passes, if_neg htaken]
      omega
    have hloop := @printfLoop_eq _ formatFloat _ _ hitems hfits htaken h (passes parts args) 0
      (by omega) (args.length + 1) passes_le hpositive
    rwa [Nat.zero_mul, ← List.range_eq_range'] at hloop

end Run

/-- `printf '%-05d|%5s%b\n' -7 é 'a\061'` pads by bytes and reads octal numbers. -/
theorem padded_printed :
    ∃ outcome, builtinPrintf (fun _ _ => [])
        ["printf".toList, "%-05d|%5s%b\\n".toList, ['-', '7'], ['é'], "a\\061".toList] =
          some outcome ∧
      outcome.Shows (posixPrintf (fun _ _ => []) "%-05d|%5s%b\\n".toList
        [['-', '7'], ['é'], "a\\061".toList]) := by
  have hformat : posixFormat "%-05d|%5s%b\\n".toList =
      [.conversion ⟨['-', '0'], 5, none, some 'd', List.all_eq_true.mp rfl⟩, .piece (.char '|'),
        .conversion ⟨[], 5, none, some 's', nofun⟩, .conversion ⟨[], 0, none, some 'b', nofun⟩,
        .piece (.char '\n')] := rfl
  refine builtinPrintf_eq rfl (List.all_iff_forall_prop.mp (by decide)) ?_ fun p hp => ?_
  · rw [hformat]
    simp only [List.forall_mem_cons]
    exact ⟨⟨by decide, by decide, nofun⟩, trivial, ⟨by decide, by decide, nofun⟩,
      ⟨by decide, by decide, nofun⟩, trivial, nofun⟩
  · obtain rfl : p = 0 := by
      have : p < 1 := hp
      omega
    have hescape : posixUnescape "a\\061".toList = [some (.char 'a'), some (.code 49)] := by decide
    rw [hformat]
    refine ⟨⟨by decide, by decide, nofun, nofun⟩, nofun,
      ⟨List.all_iff_forall_prop.mp (by decide), ?_, nofun⟩, trivial⟩
    change ∀ piece ∈ posixUnescape "a\\061".toList, _
    rw [hescape]
    simp only [List.forall_mem_cons]
    exact ⟨⟨_, rfl, trivial⟩, ⟨_, rfl, (by decide : 49 < 0x80)⟩, nofun⟩

/-- `printf é` prints two other characters. -/
theorem accent_doubled :
    ¬∃ outcome, builtinPrintf (fun _ _ => []) ["printf".toList, ['é']] = some outcome ∧
      outcome.Shows (posixPrintf (fun _ _ => []) ['é'] []) := by
  rintro ⟨outcome, hrun, hshows⟩
  obtain rfl := Option.some.inj hrun
  exact absurd hshows.stdout (by decide)

end Wasmsh.Printf

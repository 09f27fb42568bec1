import Mathlib.Data.List.Basic
import Mathlib.Data.List.TakeWhile
import Mathlib.Data.Nat.Basic
import Mathlib.Tactic.IntervalCases

/-!
# Textual IP addresses

The texts that are read as IPv4 and IPv6 addresses, and the text that an address is printed
as: decimal octets, and hexadecimal segments with the longest run of two or more zero segments
left out.  An IPv6 address that carries an IPv4 address is printed with its octets.
-/

namespace IpText

variable {a : Ipv6Addr} {s : List Char}

/-! ## 1. Addresses -/

structure Ipv4Addr where
  a : UInt8
  b : UInt8
  c : UInt8
  d : UInt8
  deriving DecidableEq, Repr

/-- Eight segments of sixteen bits. -/
structure Ipv6Addr where
  segments : List UInt16
  length_segments : segments.length = 8
  deriving DecidableEq

inductive IpAddr where
  | v4 (a : Ipv4Addr)
  | v6 (a : Ipv6Addr)
  deriving DecidableEq

def IpAddr.isV6 : IpAddr → Bool
  | .v4 _ => false
  | .v6 _ => true

/-! ## 2. Reading -/

/-- The value of a hexadecimal digit. -/
def digitValue (c : Char) : Option Nat :=
  if c.isDigit then some (c.toNat - '0'.toNat)
  else if 'a' ≤ c ∧ c ≤ 'f' then some (c.toNat - 'a'.toNat + 10)
  else if 'A' ≤ c ∧ c ≤ 'F' then some (c.toNat - 'A'.toNat + 10)
  else none

def isDigitOf (radix : Nat) (c : Char) : Bool := (digitValue c).any (· < radix)

/-- As many digits as follow, but at most `maxDigits`; where `zeros` is false no number but
    `0` starts with the digit `0`. -/
def readNumber (radix maxDigits : Nat) (zeros : Bool) (s : List Char) :
    Option (Nat × List Char) :=
  let digits := s.takeWhile (isDigitOf radix)
  if digits.isEmpty || maxDigits < digits.length ||
      (!zeros && digits.head? == some '0' && 1 < digits.length) then none
  else
    some (digits.foldl (fun n c => n * radix + (digitValue c).getD 0) 0,
      s.dropWhile (isDigitOf radix))

/-- One character. -/
def readChar (c : Char) : List Char → Option (List Char)
  | x :: s => if x = c then some s else none
  | [] => none

def readOctet (s : List Char) : Option (UInt8 × List Char) := do
  let (n, s) ← readNumber 10 3 false s
  if n < 256 then some (UInt8.ofNat n, s) else none

def readIpv4 (s : List Char) : Option (Ipv4Addr × List Char) := do
  let (a, s) ← readOctet s
  let s ← readChar '.' s
  let (b, s) ← readOctet s
  let s ← readChar '.' s
  let (c, s) ← readOctet s
  let s ← readChar '.' s
  let (d, s) ← readOctet s
  return (⟨a, b, c, d⟩, s)

/-- Two octets as a segment. -/
def joinOctets (a b : UInt8) : UInt16 := UInt16.ofNat (a.toNat * 256 + b.toNat)

/-- Up to `limit` segments, the first of them number `i` of the run; whether the last two were
    an IPv4 address. -/
def readGroups : (limit i : Nat) → List Char → List UInt16 × Bool × List Char
  | 0, _, s => ([], false, s)
  | limit + 1, i, s =>
    let next := if i = 0 then some s else readChar ':' s
    match (if 0 < limit then next.bind readIpv4 else none) with
    | some (v4, s) => ([joinOctets v4.a v4.b, joinOctets v4.c v4.d], true, s)
    | none =>
      match next.bind (readNumber 16 4 true) with
      | none => ([], false, s)
      | some (n, s) =>
        let rest := readGroups limit (i + 1) s
        (UInt16.ofNat n :: rest.1, rest.2)

/-- Eight segments with zeros between the two runs that were read. -/
def fillSegments (head tail : List UInt16) : Option Ipv6Addr :=
  let segments := head ++ List.replicate (8 - head.length - tail.length) 0 ++ tail
  if h : segments.length = 8 then some ⟨segments, h⟩ else none

def readIpv6 (s : List Char) : Option (Ipv6Addr × List Char) :=
  let (head, headIpv4, s) := readGroups 8 0 s
  if head.length = 8 then (fillSegments head []).map (·, s)
  else if headIpv4 then none
  else do
    let s ← readChar ':' s
    let s ← readChar ':' s
    let (tail, _, s) := readGroups (8 - (head.length + 1)) 0 s
    let a ← fillSegments head tail
    return (a, s)

/-- The whole text is an address; a longer text than any address is refused first. -/
def parseIpv4 (s : List Char) : Option Ipv4Addr :=
  if 15 < s.length then none
  else match readIpv4 s with
    | some (a, []) => some a
    | _ => none

def parseIpv6 (s : List Char) : Option Ipv6Addr :=
  match readIpv6 s with
  | some (a, []) => some a
  | _ => none

def parseIp (s : List Char) : Option IpAddr :=
  match parseIpv4 s with
  | some a => some (.v4 a)
  | none => (parseIpv6 s).map .v6

/-! ## 3. Printing -/

def octetText (a : UInt8) : List Char := Nat.toDigits 10 a.toNat

def segmentText (a : UInt16) : List Char := Nat.toDigits 16 a.toNat

def Ipv4Addr.text (a : Ipv4Addr) : List Char :=
  ['.'].intercalate [octetText a.a, octetText a.b, octetText a.c, octetText a.d]

/-- The longest run of zeros, the first of them when several are longest: its start and its
    length. -/
def longestZeros (segments : List UInt16) : Nat × Nat :=
  (List.range segments.length).foldl (fun best i =>
    let n := ((segments.drop i).takeWhile (· = 0)).length
    if best.2 < n then (i, n) else best) (0, 0)

/-- The four octets of an address that carries an IPv4 address. -/
def Ipv6Addr.ipv4Mapped (a : Ipv6Addr) : Option Ipv4Addr :=
  match a.segments with
  | [0, 0, 0, 0, 0, 0xffff, x, y] =>
    some ⟨UInt8.ofNat (x.toNat / 256), UInt8.ofNat x.toNat, UInt8.ofNat (y.toNat / 256),
      UInt8.ofNat y.toNat⟩
  | _ => none

/-- The texts between the colons; an empty text stands for what is left out, and another one
    where this is at an end. -/
def Ipv6Addr.pieces (a : Ipv6Addr) : List (List Char) :=
  match a.ipv4Mapped with
  | some v4 => [[], [], "ffff".toList, v4.text]
  | none =>
    let (start, n) := longestZeros a.segments
    if n < 2 then a.segments.map segmentText
    else
      let head := (a.segments.take start).map segmentText
      let tail := (a.segments.drop (start + n)).map segmentText
      (if head.isEmpty then [[]] else head) ++ [[]] ++ (if tail.isEmpty then [[]] else tail)

def Ipv6Addr.text (a : Ipv6Addr) : List Char := [':'].intercalate a.pieces

def IpAddr.text : IpAddr → List Char
  | .v4 a => a.text
  | .v6 a => a.text

/-! ## 4. What an address is written with -/

/-- The characters that reading took: those of addresses, and no dot at the end. -/
structure Took (used : List Char) : Prop where
  chars : ∀ c ∈ used, isDigitOf 16 c = true ∨ c = ':' ∨ c = '.'
  last : used.getLast? ≠ some '.'

theorem Took.append {s t : List Char} (hs : ∀ c ∈ s, isDigitOf 16 c = true ∨ c = ':' ∨ c = '.')
    (ht : Took t) (hne : t ≠ []) : Took (s ++ t) where
  chars := by
    intro c hc
    rcases List.mem_append.mp hc with hc | hc
    · exact hs c hc
    · exact ht.chars c hc
  last := by
    rw [List.getLast?_append_of_ne_nil s hne]
    exact ht.last

theorem isDigitOf_ten {c : Char} (h : isDigitOf 10 c = true) : isDigitOf 16 c = true := by
  unfold isDigitOf at *
  cases hv : digitValue c with
  | none => simp [hv] at h
  | some n =>
    simp only [hv, Option.any_some, decide_eq_true_eq] at h ⊢
    omega

theorem readNumber_took {radix maxDigits n : Nat} {zeros : Bool} {s rest : List Char}
    (h : readNumber radix maxDigits zeros s = some (n, rest)) :
    ∃ digits, s = digits ++ rest ∧ digits ≠ [] ∧ ∀ c ∈ digits, isDigitOf radix c = true := by
  unfold readNumber at h
  dsimp only at h
  split at h
  · cases h
  next hok =>
    cases h
    simp only [Bool.or_eq_true, not_or] at hok
    refine ⟨_, List.takeWhile_append_dropWhile.symm, ?_, ?_⟩
    · simpa using hok.1.1
    · exact List.all_eq_true.mp List.all_takeWhile

theorem readChar_took {c : Char} {s rest : List Char} (h : readChar c s = some rest) :
    s = c :: rest := by
  cases s with
  | nil => cases h
  | cons x s =>
    rw [readChar] at h
    split at h
    next hx =>
      rw [hx, Option.some.inj h]
    next => cases h

theorem took_of_digits {radix : Nat} {digits : List Char} (hradix : radix ≤ 16)
    (h : ∀ c ∈ digits, isDigitOf radix c = true) : Took digits where
  chars := by
    intro c hc
    have hdigit := h c hc
    unfold isDigitOf at hdigit ⊢
    cases hv : digitValue c with
    | none => simp [hv] at hdigit
    | some n =>
      simp only [hv, Option.any_some, decide_eq_true_eq] at hdigit ⊢
      omega
  last := by
    intro hlast
    have hdot := h '.' (List.mem_of_getLast? hlast)
    have hnone : digitValue '.' = none := by decide
    simp [isDigitOf, hnone] at hdot

theorem readOctet_took {a : UInt8} {s rest : List Char} (h : readOctet s = some (a, rest)) :
    ∃ digits, s = digits ++ rest ∧ digits ≠ [] ∧ ∀ c ∈ digits, isDigitOf 10 c = true := by
  unfold readOctet at h
  obtain ⟨⟨n, s'⟩, hnumber, h⟩ := Option.bind_eq_some_iff.mp h
  dsimp only at h
  split at h
  · cases h
    exact readNumber_took hnumber
  · cases h

/-- An IPv4 address is digits and dots, and ends with a digit. -/
theorem readIpv4_took {a : Ipv4Addr} {s rest : List Char} (h : readIpv4 s = some (a, rest)) :
    ∃ before last, s = before ++ '.' :: last ++ rest ∧ last ≠ [] ∧
      (∀ c ∈ last, isDigitOf 10 c = true) ∧ ∀ c ∈ before, isDigitOf 10 c = true ∨ c = '.' := by
  unfold readIpv4 at h
  obtain ⟨⟨a₁, s₁⟩, h₁, h⟩ := Option.bind_eq_some_iff.mp h
  obtain ⟨t₁, hdot₁, h⟩ := Option.bind_eq_some_iff.mp h
  obtain ⟨⟨a₂, s₂⟩, h₂, h⟩ := Option.bind_eq_some_iff.mp h
  obtain ⟨t₂, hdot₂, h⟩ := Option.bind_eq_some_iff.mp h
  obtain ⟨⟨a₃, s₃⟩, h₃, h⟩ := Option.bind_eq_some_iff.mp h
  obtain ⟨t₃, hdot₃, h⟩ := Option.bind_eq_some_iff.mp h
  obtain ⟨⟨a₄, s₄⟩, h₄, h⟩ := Option.bind_eq_some_iff.mp h
  cases h
  obtain ⟨d₁, rfl, -, hd₁⟩ := readOctet_took h₁
  obtain rfl := readChar_took hdot₁
  obtain ⟨d₂, rfl, -, hd₂⟩ := readOctet_took h₂
  obtain rfl := readChar_took hdot₂
  obtain ⟨d₃, rfl, -, hd₃⟩ := readOctet_took h₃
  obtain rfl := readChar_took hdot₃
  obtain ⟨d₄, rfl, hne, hd₄⟩ := readOctet_took h₄
  refine ⟨d₁ ++ '.' :: d₂ ++ '.' :: d₃, d₄, by simp, hne, hd₄, ?_⟩
  intro c hc
  simp only [List.mem_append, List.mem_cons] at hc
  rcases hc with (hc | hc | hc) | hc | hc
  · exact .inl (hd₁ c hc)
  · exact .inr hc
  · exact .inl (hd₂ c hc)
  · exact .inr hc
  · exact .inl (hd₃ c hc)

theorem took_of_ipv4 {before last : List Char} (hne : last ≠ [])
    (hlast : ∀ c ∈ last, isDigitOf 10 c = true)
    (hbefore : ∀ c ∈ before, isDigitOf 10 c = true ∨ c = '.') :
    Took (before ++ '.' :: last) := by
  have hdigits : Took last := took_of_digits (by decide) hlast
  rw [List.append_cons]
  refine .append ?_ hdigits hne
  intro c hc
  rcases List.mem_append.mp hc with hc | hc
  · rcases hbefore c hc with hc | hc
    · exact .inl (isDigitOf_ten hc)
    · exact .inr (.inr hc)
  · exact .inr (.inr (List.mem_singleton.mp hc))

/-- A run of segments: a colon stands before each of them but the first, and an IPv4 address
    counts for two. -/
theorem readGroups_took (limit i : Nat) (s : List Char) :
    ∃ used, s = used ++ (readGroups limit i s).2.2 ∧ Took used ∧
      (readGroups limit i s).1.length ≤ used.count ':' + (if i = 0 then 1 else 0) + 1 := by
  induction limit generalizing i s with
  | zero => exact ⟨[], rfl, ⟨by simp, by simp⟩, Nat.zero_le _⟩
  | succ limit ih =>
    have hsep : ∀ s', (if i = 0 then some s else readChar ':' s) = some s' →
        ∃ sep, s = sep ++ s' ∧ (∀ c ∈ sep, c = ':') ∧
          sep.count ':' + (if i = 0 then 1 else 0) = 1 := by
      intro s' hs
      by_cases hi : i = 0
      · rw [if_pos hi, Option.some.injEq] at hs
        subst hs
        exact ⟨[], rfl, by simp, by simp [hi]⟩
      · rw [if_neg hi] at hs
        obtain rfl := readChar_took hs
        exact ⟨[':'], rfl, by simp, by simp [hi]⟩
    rw [readGroups]
    dsimp only
    split
    next v4 rest hv4 =>
      split at hv4
      next =>
        obtain ⟨s', hs', hread⟩ := Option.bind_eq_some_iff.mp hv4
        obtain ⟨sep, rfl, hcolon, hcount⟩ := hsep s' hs'
        obtain ⟨before, last, rfl, hne, hlast, hbefore⟩ := readIpv4_took hread
        refine ⟨sep ++ (before ++ '.' :: last), by simp,
          .append (fun c hc => .inr (.inl (hcolon c hc))) (took_of_ipv4 hne hlast hbefore)
            (by simp), ?_⟩
        simp only [List.length_cons, List.length_nil, List.count_append]
        omega
      next => cases hv4
    next =>
      split
      next => exact ⟨[], rfl, ⟨by simp, by simp⟩, Nat.zero_le _⟩
      next n rest hn =>
        obtain ⟨s', hs', hread⟩ := Option.bind_eq_some_iff.mp hn
        obtain ⟨sep, rfl, hcolon, hcount⟩ := hsep s' hs'
        obtain ⟨digits, rfl, hne, hdigits⟩ := readNumber_took hread
        obtain ⟨used, hused, htook, hlength⟩ := ih (i + 1) rest
        have hhead : Took (sep ++ digits) :=
          .append (fun c hc => .inr (.inl (hcolon c hc))) (took_of_digits (Nat.le_refl 16) hdigits)
            hne
        refine ⟨sep ++ digits ++ used, ?_, ?_, ?_⟩
        · conv_lhs => rw [hused]
          simp
        · by_cases hnone : used = []
          · rw [hnone, List.append_nil]
            exact hhead
          · exact .append hhead.chars htook hnone
        · rw [if_neg (Nat.succ_ne_zero i)] at hlength
          simp only [List.length_cons, List.count_append]
          omega

/-- An IPv6 address is written with hexadecimal digits, colons and dots; there is a colon, and
    no dot at the end. -/
theorem readIpv6_took {s rest : List Char} (h : readIpv6 s = some (a, rest)) :
    ∃ used, s = used ++ rest ∧ Took used ∧ ':' ∈ used := by
  unfold readIpv6 at h
  obtain ⟨used, hused, htook, hlength⟩ := readGroups_took 8 0 s
  generalize hhead : readGroups 8 0 s = head at *
  obtain ⟨segments, isV4, s'⟩ := head
  dsimp only at h hused hlength
  split at h
  next hfull =>
    obtain ⟨b, -, hb⟩ := Option.map_eq_some_iff.mp h
    cases hb
    refine ⟨used, hused, htook, List.count_pos_iff.mp ?_⟩
    rw [hfull, if_pos rfl] at hlength
    omega
  next =>
    split at h
    next => cases h
    next =>
      obtain ⟨s₁, h₁, h⟩ := Option.bind_eq_some_iff.mp h
      obtain ⟨s₂, h₂, h⟩ := Option.bind_eq_some_iff.mp h
      obtain rfl := readChar_took h₁
      obtain rfl := readChar_took h₂
      obtain ⟨tail, htail, htook', -⟩ := readGroups_took (8 - (segments.length + 1)) 0 s₂
      generalize hgroups : readGroups (8 - (segments.length + 1)) 0 s₂ = groups at *
      obtain ⟨segments', isV4', s₃⟩ := groups
      dsimp only at h htail
      obtain ⟨b, -, hb⟩ := Option.bind_eq_some_iff.mp h
      cases hb
      have hcolons : Took (used ++ [':', ':']) :=
        .append htook.chars ⟨by simp, by simp⟩ (by simp)
      refine ⟨used ++ [':', ':'] ++ tail, ?_, ?_, by simp⟩
      · rw [hused, htail]
        simp
      · by_cases hnone : tail = []
        · rw [hnone, List.append_nil]
          exact hcolons
        · exact .append hcolons.chars htook' hnone

theorem parseIpv6_took (h : parseIpv6 s = some a) :
    Took s ∧ ':' ∈ s := by
  unfold parseIpv6 at h
  split at h
  next b hread =>
    obtain ⟨used, hused, htook, hcolon⟩ := readIpv6_took hread
    rw [List.append_nil] at hused
    exact hused ▸ ⟨htook, hcolon⟩
  next => cases h

theorem parseIpv4_took {a : Ipv4Addr} (h : parseIpv4 s = some a) :
    ∃ before last, s = before ++ '.' :: last ∧ last ≠ [] ∧
      (∀ c ∈ last, isDigitOf 10 c = true) ∧ ∀ c ∈ before, isDigitOf 10 c = true ∨ c = '.' := by
  unfold parseIpv4 at h
  split at h
  next => cases h
  next =>
    split at h
    next b hread =>
      obtain ⟨before, last, hs, hrest⟩ := readIpv4_took hread
      rw [List.append_nil] at hs
      exact ⟨before, last, hs, hrest⟩
    next => cases h

theorem parseIpv4_chars {a : Ipv4Addr} (h : parseIpv4 s = some a) :
    ∀ c ∈ s, isDigitOf 10 c = true ∨ c = '.' := by
  obtain ⟨before, last, rfl, -, hlast, hbefore⟩ := parseIpv4_took h
  intro c hc
  rcases List.mem_append.mp hc with hc | hc
  · exact hbefore c hc
  · rcases List.mem_cons.mp hc with hc | hc
    · exact .inr hc
    · exact .inl (hlast c hc)

/-! ## 5. Printed numbers -/

theorem digitValue_digitChar {d : Nat} (h : d < 16) : digitValue (Nat.digitChar d) = some d := by
  interval_cases d <;> decide

theorem isDigitOf_digitChar {radix d : Nat} (hradix : radix ≤ 16) (h : d < radix) :
    isDigitOf radix (Nat.digitChar d) = true := by
  rw [isDigitOf, digitValue_digitChar (by omega)]
  simpa using h

variable {radix : Nat} (hlow : 1 < radix) (hhigh : radix ≤ 16)
include hlow

theorem mem_toDigits {n : Nat} {c : Char} (hc : c ∈ Nat.toDigits radix n) :
    ∃ d, d < radix ∧ c = Nat.digitChar d := by
  induction n using Nat.strong_induction_on with
  | _ n ih =>
    rw [Nat.toDigits_eq_if hlow] at hc
    split at hc
    next hn => exact ⟨n, hn, List.mem_singleton.mp hc⟩
    next hn =>
      rcases List.mem_append.mp hc with hc | hc
      · exact ih (n / radix) (Nat.div_lt_self (by omega) hlow) hc
      · exact ⟨n % radix, Nat.mod_lt n (by omega), List.mem_singleton.mp hc⟩

include hhigh

theorem isDigitOf_toDigits (n : Nat) : ∀ c ∈ Nat.toDigits radix n, isDigitOf radix c = true := by
  intro c hc
  obtain ⟨d, hd, rfl⟩ := mem_toDigits hlow hc
  exact isDigitOf_digitChar hhigh hd

theorem foldl_toDigits (n : Nat) :
    (Nat.toDigits radix n).foldl (fun n c => n * radix + (digitValue c).getD 0) 0 = n := by
  induction n using Nat.strong_induction_on with
  | _ n ih =>
    rw [Nat.toDigits_eq_if hlow]
    split
    next hn => simp [digitValue_digitChar (show n < 16 by omega)]
    next hn =>
      have hmod : n % radix < 16 := Nat.lt_of_lt_of_le (Nat.mod_lt n (by omega)) hhigh
      rw [List.foldl_append, ih (n / radix) (Nat.div_lt_self (by omega) hlow)]
      simp only [List.foldl_cons, List.foldl_nil, digitValue_digitChar hmod, Option.getD_some]
      rw [Nat.mul_comm]
      exact Nat.div_add_mod n radix

theorem toDigits_injective {m n : Nat} (h : Nat.toDigits radix m = Nat.toDigits radix n) :
    m = n := by
  rw [← foldl_toDigits hlow hhigh m, h, foldl_toDigits hlow hhigh n]

/-- Only the number zero starts with the digit zero. -/
theorem head?_toDigits {n : Nat} (hn : 0 < n) : (Nat.toDigits radix n).head? ≠ some '0' := by
  induction n using Nat.strong_induction_on with
  | _ n ih =>
    rw [Nat.toDigits_eq_if hlow]
    split
    next hlt =>
      rw [List.head?_cons, ne_eq, Option.some.injEq, Nat.digitChar_eq_zero]
      omega
    next hge =>
      have hpos : 0 < n / radix := Nat.div_pos (by omega) (by omega)
      rw [List.head?_append_of_ne_nil _ Nat.toDigits_ne_nil]
      exact ih (n / radix) (Nat.div_lt_self hn hlow) hpos

/-- A printed number is read back, up to what is no digit. -/
theorem readNumber_toDigits {maxDigits n : Nat} {rest : List Char} (zeros : Bool)
    (hlength : (Nat.toDigits radix n).length ≤ maxDigits)
    (hrest : ∀ c ∈ rest.head?, isDigitOf radix c = false) :
    readNumber radix maxDigits zeros (Nat.toDigits radix n ++ rest) = some (n, rest) := by
  have hdigits := isDigitOf_toDigits hlow hhigh n
  have hstop : rest.takeWhile (isDigitOf radix) = [] := by
    cases rest with
    | nil => rfl
    | cons c rest => simp [hrest c rfl]
  have htake : (Nat.toDigits radix n ++ rest).takeWhile (isDigitOf radix) =
      Nat.toDigits radix n := by
    rw [List.takeWhile_append_of_pos hdigits, hstop, List.append_nil]
  have hdrop : (Nat.toDigits radix n ++ rest).dropWhile (isDigitOf radix) = rest := by
    have hall := List.takeWhile_append_dropWhile (p := isDigitOf radix)
      (l := Nat.toDigits radix n ++ rest)
    rw [htake] at hall
    exact List.append_cancel_left hall
  have hzero : ¬ ((Nat.toDigits radix n).head? = some '0' ∧
      1 < (Nat.toDigits radix n).length) := by
    rintro ⟨hhead, hlong⟩
    rcases Nat.eq_zero_or_pos n with rfl | hn
    · simp at hlong
    · exact head?_toDigits hlow hhigh hn hhead
  rw [readNumber, htake, hdrop, foldl_toDigits hlow hhigh]
  rw [if_neg]
  simp only [Bool.or_eq_true, Bool.and_eq_true, beq_iff_eq, decide_eq_true_eq, not_or,
    List.isEmpty_iff]
  exact ⟨⟨Nat.toDigits_ne_nil, by omega⟩, fun h => hzero ⟨h.1.2, h.2⟩⟩

omit hlow hhigh

/-! ## 6. IPv4 addresses -/

theorem length_octetText (a : UInt8) : (octetText a).length ≤ 3 := by
  rw [octetText, Nat.length_toDigits_le_iff (by decide) (by decide)]
  have := a.toNat_lt
  omega

theorem readOctet_octetText (a : UInt8) {rest : List Char}
    (hrest : ∀ c ∈ rest.head?, isDigitOf 10 c = false) :
    readOctet (octetText a ++ rest) = some (a, rest) := by
  have hlt := a.toNat_lt
  rw [readOctet, octetText, readNumber_toDigits (by decide) (by decide) false
    (length_octetText a) hrest]
  simp [show a.toNat < 256 from hlt]

theorem Ipv4Addr.text_eq (a : Ipv4Addr) : a.text =
    octetText a.a ++ '.' :: (octetText a.b ++ '.' :: (octetText a.c ++ '.' :: octetText a.d)) := by
  simp [Ipv4Addr.text, List.intercalate]

theorem parseIpv4_text (a : Ipv4Addr) : parseIpv4 a.text = some a := by
  have hlength : ¬ 15 < a.text.length := by
    have ha := length_octetText a.a
    have hb := length_octetText a.b
    have hc := length_octetText a.c
    have hd := length_octetText a.d
    rw [Ipv4Addr.text_eq]
    simp only [List.length_append, List.length_cons]
    omega
  have hdot : ∀ rest : List Char, ∀ c ∈ ('.' :: rest).head?, isDigitOf 10 c = false := by
    intro rest c hc
    cases hc
    decide
  have hlast := @readOctet_octetText a.d [] (by simp)
  rw [List.append_nil] at hlast
  have hread : readIpv4 a.text = some (a, []) := by
    rw [Ipv4Addr.text_eq, readIpv4, readOctet_octetText _ (hdot _)]
    simp [readChar, readOctet_octetText _ (hdot _), hlast]
  rw [parseIpv4, if_neg hlength, hread]

theorem Ipv4Addr.text_injective {a b : Ipv4Addr} (h : a.text = b.text) : a = b := by
  have ha := parseIpv4_text a
  rw [h, parseIpv4_text b] at ha
  exact (Option.some.inj ha).symm

theorem Ipv4Addr.dot_mem_text (a : Ipv4Addr) : '.' ∈ a.text := by
  rw [Ipv4Addr.text_eq]
  simp

/-! ## 7. IPv6 addresses -/

theorem mem_segmentText {a : UInt16} {c : Char} (h : c ∈ segmentText a) :
    isDigitOf 16 c = true :=
  isDigitOf_toDigits (by decide) (by decide) a.toNat c h

theorem segmentText_injective : Function.Injective segmentText := by
  intro a b h
  exact UInt16.toNat_inj.mp (toDigits_injective (by decide) (by decide) h)

theorem segmentText_ne_nil (a : UInt16) : segmentText a ≠ [] := Nat.toDigits_ne_nil

/-- The run that is left out consists of zeros. -/
theorem longestZeros_spec (segments : List UInt16) :
    (longestZeros segments).2 ≤
      ((segments.drop (longestZeros segments).1).takeWhile (· = 0)).length := by
  suffices h : ∀ (is : List Nat) (best : Nat × Nat),
      best.2 ≤ ((segments.drop best.1).takeWhile (· = 0)).length →
      (is.foldl (fun best i =>
        let n := ((segments.drop i).takeWhile (· = 0)).length
        if best.2 < n then (i, n) else best) best).2 ≤
      ((segments.drop (is.foldl (fun best i =>
        let n := ((segments.drop i).takeWhile (· = 0)).length
        if best.2 < n then (i, n) else best) best).1).takeWhile (· = 0)).length from
    h _ (0, 0) (Nat.zero_le _)
  intro is
  induction is with
  | nil => exact fun best hbest => hbest
  | cons i is ih =>
    intro best hbest
    refine ih _ ?_
    dsimp only
    split
    · exact Nat.le_refl _
    · exact hbest

theorem eq_replicate_of_takeWhile {segments : List UInt16} {n : Nat}
    (h : n ≤ (segments.takeWhile (· = 0)).length) :
    segments = List.replicate n 0 ++ segments.drop n := by
  have htake : segments.take n = List.replicate n 0 := by
    have hzero : ∀ x ∈ segments.takeWhile (· = 0), x = 0 := by
      intro x hx
      exact of_decide_eq_true (List.all_eq_true.mp List.all_takeWhile x hx)
    have htaken : segments.take n = (segments.takeWhile (· = 0)).take n := by
      conv_lhs => rw [← List.takeWhile_append_dropWhile (p := (· = 0)) (l := segments)]
      rw [List.take_append_of_le_length h]
    rw [htaken]
    refine List.eq_replicate_iff.mpr ⟨by simpa using h, fun x hx => ?_⟩
    exact hzero x (List.mem_of_mem_take hx)
  rw [← htake, List.take_append_drop]

/-- What is printed before and after the run that is left out gives the segments back. -/
theorem segments_eq {segments : List UInt16} {start n : Nat}
    (h : longestZeros segments = (start, n)) :
    segments = segments.take start ++ List.replicate n 0 ++ segments.drop (start + n) := by
  have hspec := longestZeros_spec segments
  rw [h] at hspec
  have hrun := eq_replicate_of_takeWhile hspec
  rw [List.drop_drop] at hrun
  rw [List.append_assoc, ← hrun, List.take_append_drop]

theorem takeWhile_texts {texts rest : List (List Char)} (h : ∀ t ∈ texts, t ≠ []) :
    (texts ++ [] :: rest).takeWhile (· ≠ []) = texts := by
  rw [List.takeWhile_append_of_pos (by simpa using h)]
  simp

/-- What the pieces show of an address that is not mapped: all the segments, or those before
    and after the run that is left out. -/
inductive Shows (a : Ipv6Addr) (pieces : List (List Char)) : Prop where
  | all (h : pieces = a.segments.map segmentText)
  | ends (head tail : List UInt16)
      (hsegments : a.segments =
        head ++ List.replicate (8 - head.length - tail.length) 0 ++ tail)
      (hempty : [] ∈ pieces)
      (hhead : pieces.takeWhile (· ≠ []) = head.map segmentText)
      (htail : pieces.reverse.takeWhile (· ≠ []) = (tail.map segmentText).reverse)
      (htexts : ∀ piece ∈ pieces, piece = [] ∨ ∃ x, piece = segmentText x)
      (hlong : 2 ≤ pieces.length)

theorem ne_nil_of_mem_map {segments : List UInt16} {t : List Char}
    (h : t ∈ segments.map segmentText) : t ≠ [] := by
  obtain ⟨x, -, rfl⟩ := List.mem_map.mp h
  exact segmentText_ne_nil x

theorem shows_pieces (h : a.ipv4Mapped = none) : Shows a a.pieces := by
  unfold Ipv6Addr.pieces
  rw [h]
  dsimp only
  split
  · exact .all rfl
  · generalize hzeros : longestZeros a.segments = zeros
    obtain ⟨start, n⟩ := zeros
    have hall := segments_eq hzeros
    have hlength := congrArg List.length hall
    simp only [List.length_append, List.length_replicate, a.length_segments] at hlength
    generalize a.segments.take start = head at *
    generalize a.segments.drop (start + n) = tail at *
    have hheads : ∀ rest : List (List Char),
        ((if (head.map segmentText).isEmpty then [[]] else head.map segmentText) ++
          [] :: rest).takeWhile (· ≠ []) = head.map segmentText := by
      intro rest
      split
      next hnone => simp [List.isEmpty_iff.mp hnone]
      next => exact takeWhile_texts fun t ht => ne_nil_of_mem_map ht
    have htails : ∀ rest : List (List Char),
        ((if (tail.map segmentText).isEmpty then [[]] else tail.map segmentText).reverse ++
          [] :: rest).takeWhile (· ≠ []) = (tail.map segmentText).reverse := by
      intro rest
      split
      next hnone => simp [List.isEmpty_iff.mp hnone]
      next =>
        refine takeWhile_texts fun t ht => ?_
        exact ne_nil_of_mem_map (List.mem_reverse.mp ht)
    refine .ends head tail ?_ ?_ ?_ ?_ ?_ ?_
    · rw [show 8 - head.length - tail.length = n by omega]
      exact hall
    · simp
    · rw [List.append_assoc]
      exact hheads _
    · rw [List.reverse_append, List.reverse_append, List.reverse_singleton]
      exact htails _
    · intro piece hpiece
      have htext : ∀ segments : List UInt16,
          piece ∈ (if (segments.map segmentText).isEmpty then [[]] else segments.map segmentText) →
          piece = [] ∨ ∃ x, piece = segmentText x := by
        intro segments hmem
        split at hmem
        · exact .inl (List.mem_singleton.mp hmem)
        · obtain ⟨x, -, rfl⟩ := List.mem_map.mp hmem
          exact .inr ⟨x, rfl⟩
      rcases List.mem_append.mp hpiece with hpiece | hpiece
      · rcases List.mem_append.mp hpiece with hpiece | hpiece
        · exact htext head hpiece
        · exact .inl (List.mem_singleton.mp hpiece)
      · exact htext tail hpiece
    · have hone : ∀ segments : List UInt16, 1 ≤
          (if (segments.map segmentText).isEmpty then [[]] else segments.map segmentText).length := by
        intro segments
        split
        · exact Nat.le_refl 1
        · next hsome =>
          rw [List.isEmpty_iff] at hsome
          exact List.length_pos_iff.mpr hsome
      have := hone tail
      simp only [List.length_append, List.length_singleton]
      omega

theorem Shows.texts {pieces : List (List Char)} (h : Shows a pieces) :
    ∀ piece ∈ pieces, piece = [] ∨ ∃ x, piece = segmentText x := by
  cases h with
  | all h =>
    intro piece hpiece
    rw [h] at hpiece
    obtain ⟨x, -, rfl⟩ := List.mem_map.mp hpiece
    exact .inr ⟨x, rfl⟩
  | ends head tail hsegments hempty hhead htail htexts hlong => exact htexts

/-- The pieces of an address that is not mapped are hexadecimal. -/
theorem mem_pieces (h : a.ipv4Mapped = none) {piece : List Char}
    (hpiece : piece ∈ a.pieces) : ∀ c ∈ piece, isDigitOf 16 c = true := by
  rcases (shows_pieces h).texts piece hpiece with rfl | ⟨x, rfl⟩
  · intro c hc
    cases hc
  · exact fun c hc => mem_segmentText hc

theorem Shows.eq {a b : Ipv6Addr} {pieces : List (List Char)} (ha : Shows a pieces)
    (hb : Shows b pieces) : a = b := by
  have hsegments : a.segments = b.segments := by
    cases ha with
    | all ha =>
      cases hb with
      | all hb => exact (segmentText_injective.list_map (ha.symm.trans hb))
      | ends head tail _ hempty _ _ _ _ => exact absurd rfl (ne_nil_of_mem_map (ha ▸ hempty))
    | ends head tail hsegments hempty hhead htail _ _ =>
      cases hb with
      | all hb => exact absurd rfl (ne_nil_of_mem_map (hb ▸ hempty))
      | ends head' tail' hsegments' _ hhead' htail' _ _ =>
        have hheads : head = head' := segmentText_injective.list_map (hhead.symm.trans hhead')
        have htails : tail = tail' := by
          refine segmentText_injective.list_map ?_
          exact List.reverse_injective (htail.symm.trans htail')
        rw [hsegments, hsegments', hheads, htails]
  obtain ⟨sa, ha'⟩ := a
  cases hsegments
  rfl

theorem ipv4Mapped_injective {a b : Ipv6Addr} {v4 : Ipv4Addr} (ha : a.ipv4Mapped = some v4)
    (hb : b.ipv4Mapped = some v4) : a = b := by
  have hsegments : ∀ {a : Ipv6Addr}, a.ipv4Mapped = some v4 →
      a.segments = [0, 0, 0, 0, 0, 0xffff, joinOctets v4.a v4.b, joinOctets v4.c v4.d] := by
    intro a ha
    unfold Ipv6Addr.ipv4Mapped at ha
    split at ha
    next x y heq =>
      cases ha
      have hjoin : ∀ x : UInt16,
          joinOctets (UInt8.ofNat (x.toNat / 256)) (UInt8.ofNat x.toNat) = x := by
        intro x
        have hx := x.toNat_lt
        refine UInt16.toNat_inj.mp ?_
        rw [joinOctets, UInt16.toNat_ofNat', UInt8.toNat_ofNat', UInt8.toNat_ofNat']
        omega
      rw [heq, hjoin, hjoin]
    next => cases ha
  obtain ⟨sa, ha'⟩ := a
  obtain ⟨sb, hb'⟩ := b
  have := (hsegments ha).trans (hsegments hb).symm
  cases this
  rfl

theorem colon_not_mem_pieces (a : Ipv6Addr) : ∀ piece ∈ a.pieces, ':' ∉ piece := by
  intro piece hpiece hcolon
  cases hmapped : a.ipv4Mapped with
  | none => exact absurd (mem_pieces hmapped hpiece ':' hcolon) (by decide)
  | some v4 =>
    rw [Ipv6Addr.pieces, hmapped] at hpiece
    simp only [List.mem_cons, List.not_mem_nil, or_false] at hpiece
    rcases hpiece with rfl | rfl | rfl | rfl
    · cases hcolon
    · cases hcolon
    · revert hcolon
      decide
    · rcases parseIpv4_chars (parseIpv4_text v4) ':' hcolon with h | h
      · exact absurd h (by decide)
      · cases h

theorem length_pieces (a : Ipv6Addr) : 2 ≤ a.pieces.length := by
  cases hmapped : a.ipv4Mapped with
  | some v4 => simp [Ipv6Addr.pieces, hmapped]
  | none =>
    cases shows_pieces hmapped with
    | all h =>
      rw [h, List.length_map, a.length_segments]
      decide
    | ends head tail _ _ _ _ _ hlong => exact hlong

theorem pieces_ne_nil (a : Ipv6Addr) : a.pieces ≠ [] := by
  intro hnil
  have hlength := length_pieces a
  rw [hnil] at hlength
  cases hlength

theorem Ipv6Addr.text_injective {a b : Ipv6Addr} (h : a.text = b.text) : a = b := by
  have hpieces : a.pieces = b.pieces := by
    rw [← List.splitOn_intercalate ':' (colon_not_mem_pieces a) (pieces_ne_nil a),
      ← List.splitOn_intercalate ':' (colon_not_mem_pieces b) (pieces_ne_nil b)]
    exact congrArg (List.splitOn ':') h
  have hmappedPieces : ∀ {a : Ipv6Addr} {v4 : Ipv4Addr}, a.ipv4Mapped = some v4 →
      a.pieces = [[], [], "ffff".toList, v4.text] := by
    intro a v4 ha
    rw [Ipv6Addr.pieces, ha]
  have hdots : ∀ {a b : Ipv6Addr} {v4 : Ipv4Addr}, a.pieces = b.pieces →
      a.ipv4Mapped = some v4 → b.ipv4Mapped ≠ none := by
    intro a b v4 hpieces ha hb
    have hmem : v4.text ∈ b.pieces := by
      rw [← hpieces, hmappedPieces ha]
      simp
    exact absurd (mem_pieces hb hmem '.' v4.dot_mem_text) (by decide)
  cases ha : a.ipv4Mapped with
  | none =>
    cases hb : b.ipv4Mapped with
    | none => exact (shows_pieces ha).eq (hpieces ▸ shows_pieces hb)
    | some v4 => exact absurd ha (hdots hpieces.symm hb)
  | some v4 =>
    cases hb : b.ipv4Mapped with
    | none => exact absurd hb (hdots hpieces ha)
    | some w4 =>
      rw [hmappedPieces ha, hmappedPieces hb] at hpieces
      have hv4 : v4 = w4 := Ipv4Addr.text_injective (by simpa using hpieces)
      exact ipv4Mapped_injective ha (hv4 ▸ hb)

theorem Ipv6Addr.colon_mem_text (a : Ipv6Addr) : ':' ∈ a.text := by
  have hlength := length_pieces a
  unfold Ipv6Addr.text
  generalize a.pieces = pieces at hlength
  cases pieces with
  | nil => cases hlength
  | cons p pieces =>
    cases pieces with
    | nil => simp at hlength
    | cons q pieces => simp [List.intercalate]

/-! ## 8. Last labels -/

/-- What stands after the last dot. -/
def lastLabel (s : List Char) : List Char := (s.reverse.takeWhile (· ≠ '.')).reverse

theorem lastLabel_append (before : List Char) {last : List Char} (h : '.' ∉ last) :
    lastLabel (before ++ '.' :: last) = last := by
  have hlast : ∀ c ∈ last.reverse, decide (c ≠ '.') = true := by
    intro c hc
    have hne : c ≠ '.' := fun hdot => h (hdot ▸ List.mem_reverse.mp hc)
    simpa using hne
  rw [lastLabel, List.reverse_append, List.reverse_cons, List.append_assoc,
    List.singleton_append, List.takeWhile_append_of_pos hlast]
  simp

/-- A text and what follows one of its dots have the same last label. -/
theorem lastLabel_suffix {s t : List Char} (h : '.' :: t <:+ s) : lastLabel s = lastLabel t := by
  obtain ⟨before, rfl⟩ := h
  unfold lastLabel
  rw [List.reverse_append, List.reverse_cons, List.append_assoc, List.singleton_append]
  by_cases hall : ∀ c ∈ t.reverse, decide (c ≠ '.') = true
  · rw [List.takeWhile_append_of_pos hall, List.takeWhile_eq_self_iff.mpr hall]
    simp
  · rw [List.takeWhile_append, if_neg]
    intro hlength
    have hself := List.IsPrefix.eq_of_length (List.takeWhile_prefix _) hlength
    exact hall (List.takeWhile_eq_self_iff.mp hself)

theorem lastLabel_of_parseIpv4 {a : Ipv4Addr} (h : parseIpv4 s = some a) :
    lastLabel s ≠ [] ∧ ∀ c ∈ lastLabel s, isDigitOf 10 c = true := by
  obtain ⟨before, last, rfl, hne, hlast, -⟩ := parseIpv4_took h
  have hdot : '.' ∉ last := fun hmem => absurd (hlast '.' hmem) (by decide)
  rw [lastLabel_append before hdot]
  exact ⟨hne, hlast⟩

theorem mem_intercalate {x c : Char} {ls : List (List Char)} (h : c ∈ [x].intercalate ls) :
    c = x ∨ ∃ l ∈ ls, c ∈ l := by
  induction ls with
  | nil => simp [List.intercalate] at h
  | cons l ls ih =>
    cases ls with
    | nil => exact .inr ⟨l, List.mem_singleton_self l, by simpa [List.intercalate] using h⟩
    | cons m ls =>
      rw [List.intercalate_cons_cons] at h
      rcases List.mem_append.mp h with h | h
      · rcases List.mem_append.mp h with h | h
        · exact .inr ⟨l, List.mem_cons_self, h⟩
        · exact .inl (List.mem_singleton.mp h)
      · rcases ih h with h | ⟨l', hl', h⟩
        · exact .inl h
        · exact .inr ⟨l', List.mem_cons_of_mem l hl', h⟩

/-- Where an IPv6 address is printed with a dot, it ends with the digits of an octet. -/
theorem lastLabel_ipv6 (h : '.' ∈ a.text) :
    lastLabel a.text ≠ [] ∧ ∀ c ∈ lastLabel a.text, isDigitOf 10 c = true := by
  cases hmapped : a.ipv4Mapped with
  | none =>
    have hchars : ∀ c ∈ a.text, isDigitOf 16 c = true ∨ c = ':' := by
      intro c hc
      rcases mem_intercalate hc with hcolon | ⟨piece, hpiece, hmem⟩
      · exact .inr hcolon
      · exact .inl (mem_pieces hmapped hpiece c hmem)
    rcases hchars '.' h with hdigit | hcolon
    · exact absurd hdigit (by decide)
    · cases hcolon
  | some v4 =>
    obtain ⟨before, last, htext, hne, hlast, -⟩ := parseIpv4_took (parseIpv4_text v4)
    have hdot : '.' ∉ last := fun hmem => absurd (hlast '.' hmem) (by decide)
    have hall : a.text = ("::ffff:".toList ++ before) ++ '.' :: last := by
      rw [Ipv6Addr.text, Ipv6Addr.pieces, hmapped]
      simp [List.intercalate, htext]
    rw [hall, lastLabel_append _ hdot]
    exact ⟨hne, hlast⟩

/-! ## 9. Addresses with all segments -/

/-- The eight segments, none left out. -/
def Ipv6Addr.fullText (a : Ipv6Addr) : List Char :=
  [':'].intercalate (a.segments.map segmentText)

theorem readIpv4_none (h : '.' ∉ s) : readIpv4 s = none := by
  cases hread : readIpv4 s with
  | none => rfl
  | some r =>
    obtain ⟨before, last, rfl, -⟩ := @readIpv4_took r.1 s r.2 hread
    simp at h

theorem dot_not_mem_segmentText (a : UInt16) : '.' ∉ segmentText a :=
  fun h => absurd (mem_segmentText h) (by decide)

/-- Segments after the first one. -/
def colonText (segments : List UInt16) : List Char :=
  segments.flatMap fun a => ':' :: segmentText a

theorem dot_not_mem_colonText (segments : List UInt16) : '.' ∉ colonText segments := by
  intro h
  obtain ⟨a, -, ha⟩ := List.mem_flatMap.mp h
  rcases List.mem_cons.mp ha with h | h
  · cases h
  · exact dot_not_mem_segmentText a h

theorem readNumber_segmentText (a : UInt16) (segments : List UInt16) :
    readNumber 16 4 true (segmentText a ++ colonText segments) =
      some (a.toNat, colonText segments) := by
  refine readNumber_toDigits (by decide) (by decide) true ?_ ?_
  · rw [Nat.length_toDigits_le_iff (by decide) (by decide)]
    exact a.toNat_lt
  · intro c hc
    cases segments with
    | nil => cases hc
    | cons b segments =>
      cases hc
      decide

theorem readGroups_colonText (segments : List UInt16) (i : Nat) :
    readGroups segments.length (i + 1) (colonText segments) = (segments, false, []) := by
  induction segments generalizing i with
  | nil => rfl
  | cons a segments ih =>
    have hdot : '.' ∉ segmentText a ++ colonText segments := by
      rw [List.mem_append, not_or]
      exact ⟨dot_not_mem_segmentText a, dot_not_mem_colonText segments⟩
    have hnext : readChar ':' (colonText (a :: segments)) =
        some (segmentText a ++ colonText segments) := rfl
    rw [List.length_cons, readGroups]
    simp only [Nat.add_eq_zero_iff, one_ne_zero, and_false, if_false, hnext, Option.bind_some,
      readIpv4_none hdot, ite_self, readNumber_segmentText, ih, UInt16.ofNat_toNat]

theorem fullText_cons (a : UInt16) (segments : List UInt16) :
    [':'].intercalate ((a :: segments).map segmentText) = segmentText a ++ colonText segments := by
  induction segments generalizing a with
  | nil => simp [List.intercalate, colonText]
  | cons b segments ih =>
    rw [List.map_cons, List.map_cons, List.intercalate_cons_cons, ← List.map_cons, ih]
    simp [colonText]

/-- An address with all of its segments is read back. -/
theorem parseIpv6_fullText (a : Ipv6Addr) : parseIpv6 a.fullText = some a := by
  obtain ⟨segments, hlength⟩ := a
  have hread : readGroups 8 0 ([':'].intercalate (segments.map segmentText)) =
      (segments, false, []) := by
    cases segments with
    | nil => cases hlength
    | cons x segments =>
      have hdot : '.' ∉ segmentText x ++ colonText segments := by
        rw [List.mem_append, not_or]
        exact ⟨dot_not_mem_segmentText x, dot_not_mem_colonText segments⟩
      have hseven : segments.length = 7 := Nat.succ.inj hlength
      have hrest := readGroups_colonText segments 0
      rw [hseven] at hrest
      rw [fullText_cons, readGroups]
      simp only [if_true, Option.bind_some, readIpv4_none hdot, ite_self, readNumber_segmentText,
        hrest, UInt16.ofNat_toNat]
  have hfill : fillSegments segments [] = some ⟨segments, hlength⟩ := by
    unfold fillSegments
    simp [hlength]
  rw [parseIpv6, readIpv6, Ipv6Addr.fullText, hread]
  dsimp only
  rw [if_pos hlength, hfill]
  rfl

theorem dot_not_mem_fullText (a : Ipv6Addr) : '.' ∉ a.fullText := by
  intro h
  rcases mem_intercalate h with h | ⟨l, hl, hmem⟩
  · cases h
  · obtain ⟨x, -, rfl⟩ := List.mem_map.mp hl
    exact dot_not_mem_segmentText x hmem

theorem toLower_digitChar {d : Nat} (h : d < 16) : (Nat.digitChar d).toLower = Nat.digitChar d := by
  interval_cases d <;> decide

theorem fullText_lower (a : Ipv6Addr) : a.fullText.map Char.toLower = a.fullText := by
  have hchars : ∀ c ∈ a.fullText, c.toLower = c := by
    intro c hc
    rcases mem_intercalate hc with rfl | ⟨l, hl, hmem⟩
    · decide
    · obtain ⟨x, -, rfl⟩ := List.mem_map.mp hl
      obtain ⟨d, hd, rfl⟩ := mem_toDigits (by decide) hmem
      exact toLower_digitChar hd
  rw [List.map_congr_left hchars, List.map_id']

end IpText

import Mathlib.Data.List.Basic

/-!
# Texts as bytes

A text is a list of characters; its bytes in UTF-8 are again written as a list of
characters, each of a code below 256.  A text of ASCII characters is its own list of
bytes, and no other character has a byte below 128 in its code, so a byte of ASCII found
in the bytes of a text is a character of the text.
-/

namespace Utf8

variable {cs : List Char}

/-- The bytes of a character. -/
def encodeChar (c : Char) : List Char :=
  let n := c.toNat
  if n < 0x80 then [c]
  else if n < 0x800 then [Char.ofNat (0xC0 + n / 64), Char.ofNat (0x80 + n % 64)]
  else if n < 0x10000 then
    [Char.ofNat (0xE0 + n / 4096), Char.ofNat (0x80 + n / 64 % 64), Char.ofNat (0x80 + n % 64)]
  else
    [Char.ofNat (0xF0 + n / 262144), Char.ofNat (0x80 + n / 4096 % 64),
      Char.ofNat (0x80 + n / 64 % 64), Char.ofNat (0x80 + n % 64)]

/-- The bytes of a text. -/
def encode (cs : List Char) : List Char := cs.flatMap encodeChar

/-- The number of the bytes of a text. -/
def size (cs : List Char) : Nat := (encode cs).length

/-- The text of a list of bytes.  Bytes that are no UTF-8 do not occur where this is
    used; their rest is dropped. -/
def decode : List Char → List Char
  | [] => []
  | b :: r =>
    if b.toNat < 0x80 then b :: decode r
    else if b.toNat < 0xE0 then
      match r with
      | b₁ :: r => Char.ofNat ((b.toNat - 0xC0) * 64 + (b₁.toNat - 0x80)) :: decode r
      | _ => []
    else if b.toNat < 0xF0 then
      match r with
      | b₁ :: b₂ :: r =>
        Char.ofNat ((b.toNat - 0xE0) * 4096 + (b₁.toNat - 0x80) * 64 + (b₂.toNat - 0x80)) ::
          decode r
      | _ => []
    else
      match r with
      | b₁ :: b₂ :: b₃ :: r =>
        Char.ofNat ((b.toNat - 0xF0) * 262144 + (b₁.toNat - 0x80) * 4096 +
          (b₂.toNat - 0x80) * 64 + (b₃.toNat - 0x80)) :: decode r
      | _ => []

/-- A byte after the first one of a character. -/
def isContinuation (b : Char) : Bool := decide (0x80 ≤ b.toNat ∧ b.toNat < 0xC0)

/-- The bytes do not start inside a character. -/
def isCharBoundary (bytes : List Char) : Bool := !(bytes.head?.any isContinuation)

/-- The text between two places of a text's bytes, each given by what follows it; there is
    none where a place is inside a character. -/
def slice (start stop : List Char) : Option (List Char) :=
  if stop.length ≤ start.length ∧ isCharBoundary start ∧ isCharBoundary stop then
    some (decode (start.take (start.length - stop.length)))
  else none

@[simp] theorem encode_nil : encode [] = [] := rfl

@[simp] theorem encode_cons (c : Char) (cs : List Char) :
    encode (c :: cs) = encodeChar c ++ encode cs := rfl

@[simp] theorem encode_append (cs cs' : List Char) :
    encode (cs ++ cs') = encode cs ++ encode cs' := by
  simp [encode]

theorem toNat_ofNat {n : Nat} (h : n < 256) : (Char.ofNat n).toNat = n := by
  have hvalid : n.isValidChar := Or.inl (by omega)
  have hchar : Char.ofNat n = Char.ofNatAux n hvalid := dif_pos hvalid
  rw [hchar]
  rfl

theorem ofNat_toNat (c : Char) : Char.ofNat c.toNat = c := Char.ofNat_toNat c

theorem toNat_lt (c : Char) : c.toNat < 1114112 := by
  rcases c.valid with h | h
  · exact Nat.lt_trans h (by decide)
  · exact h.2

theorem decode_encodeChar (c : Char) (r : List Char) :
    decode (encodeChar c ++ r) = c :: decode r := by
  have hlt := toNat_lt c
  unfold encodeChar
  dsimp only
  split
  · next h =>
    rw [List.singleton_append, decode.eq_def]
    simp only [h, if_true]
  · next h₁ =>
    split
    · next h₂ =>
      have hhead : (Char.ofNat (0xC0 + c.toNat / 64)).toNat = 0xC0 + c.toNat / 64 :=
        toNat_ofNat (by omega)
      have htail : (Char.ofNat (0x80 + c.toNat % 64)).toNat = 0x80 + c.toNat % 64 :=
        toNat_ofNat (by omega)
      have hvalue : (0xC0 + c.toNat / 64 - 0xC0) * 64 + (0x80 + c.toNat % 64 - 0x80) = c.toNat := by
        omega
      simp only [List.cons_append, List.nil_append]
      rw [decode.eq_def]
      simp only [hhead, htail, hvalue, ofNat_toNat]
      rw [if_neg (by omega), if_pos (by omega)]
    · next h₂ =>
      split
      · next h₃ =>
        have hhead : (Char.ofNat (0xE0 + c.toNat / 4096)).toNat = 0xE0 + c.toNat / 4096 :=
          toNat_ofNat (by omega)
        have hmid : (Char.ofNat (0x80 + c.toNat / 64 % 64)).toNat = 0x80 + c.toNat / 64 % 64 :=
          toNat_ofNat (by omega)
        have htail : (Char.ofNat (0x80 + c.toNat % 64)).toNat = 0x80 + c.toNat % 64 :=
          toNat_ofNat (by omega)
        have hvalue : (0xE0 + c.toNat / 4096 - 0xE0) * 4096 + (0x80 + c.toNat / 64 % 64 - 0x80) * 64 +
            (0x80 + c.toNat % 64 - 0x80) = c.toNat := by omega
        simp only [List.cons_append, List.nil_append]
        rw [decode.eq_def]
        simp only [hhead, hmid, htail, hvalue, ofNat_toNat]
        rw [if_neg (by omega), if_neg (by omega), if_pos (by omega)]
      · next h₃ =>
        have hhead : (Char.ofNat (0xF0 + c.toNat / 262144)).toNat = 0xF0 + c.toNat / 262144 :=
          toNat_ofNat (by omega)
        have hmid : (Char.ofNat (0x80 + c.toNat / 4096 % 64)).toNat =
            0x80 + c.toNat / 4096 % 64 := toNat_ofNat (by omega)
        have hmid' : (Char.ofNat (0x80 + c.toNat / 64 % 64)).toNat = 0x80 + c.toNat / 64 % 64 :=
          toNat_ofNat (by omega)
        have htail : (Char.ofNat (0x80 + c.toNat % 64)).toNat = 0x80 + c.toNat % 64 :=
          toNat_ofNat (by omega)
        have hvalue : (0xF0 + c.toNat / 262144 - 0xF0) * 262144 +
            (0x80 + c.toNat / 4096 % 64 - 0x80) * 4096 + (0x80 + c.toNat / 64 % 64 - 0x80) * 64 +
            (0x80 + c.toNat % 64 - 0x80) = c.toNat := by omega
        simp only [List.cons_append, List.nil_append]
        rw [decode.eq_def]
        simp only [hhead, hmid, hmid', htail, hvalue, ofNat_toNat]
        rw [if_neg (by omega), if_neg (by omega), if_neg (by omega)]

/-- Decoding gives the text back. -/
theorem decode_encode (cs : List Char) : decode (encode cs) = cs := by
  induction cs with
  | nil => rfl
  | cons c cs ih => rw [encode_cons, decode_encodeChar, ih]

/-- A text of ASCII characters is its own bytes. -/
theorem encode_of_ascii (h : ∀ c ∈ cs, c.toNat < 0x80) : encode cs = cs := by
  induction cs with
  | nil => rfl
  | cons c cs ih =>
    have hc : c.toNat < 0x80 := h c (.head _)
    rw [encode_cons, ih fun c' hc' => h c' (.tail _ hc')]
    simp [encodeChar, hc]

theorem encodeChar_ne_nil (c : Char) : encodeChar c ≠ [] := by
  unfold encodeChar
  dsimp only
  split
  · exact List.cons_ne_nil _ _
  · split
    · exact List.cons_ne_nil _ _
    · split
      · exact List.cons_ne_nil _ _
      · exact List.cons_ne_nil _ _

theorem length_le_encode (cs : List Char) : cs.length ≤ (encode cs).length := by
  induction cs with
  | nil => exact Nat.le_refl 0
  | cons c cs ih =>
    have hpos := List.length_pos_of_ne_nil (encodeChar_ne_nil c)
    rw [encode_cons, List.length_append, List.length_cons]
    omega

/-- A byte of ASCII in the code of a character is the character. -/
theorem eq_of_mem_encodeChar {b c : Char} (hb : b.toNat < 0x80) (hmem : b ∈ encodeChar c) :
    b = c := by
  have hlt := toNat_lt c
  have hne : ∀ n, 0x80 ≤ n → n < 256 → b ≠ Char.ofNat n := by
    intro n hn hn' heq
    rw [heq, toNat_ofNat hn'] at hb
    omega
  unfold encodeChar at hmem
  dsimp only at hmem
  split at hmem
  · exact List.mem_singleton.mp hmem
  · split at hmem
    · simp only [List.mem_cons, List.not_mem_nil, or_false] at hmem
      rcases hmem with h | h
      · exact absurd h (hne _ (by omega) (by omega))
      · exact absurd h (hne _ (by omega) (by omega))
    · split at hmem
      · simp only [List.mem_cons, List.not_mem_nil, or_false] at hmem
        rcases hmem with h | h | h
        · exact absurd h (hne _ (by omega) (by omega))
        · exact absurd h (hne _ (by omega) (by omega))
        · exact absurd h (hne _ (by omega) (by omega))
      · simp only [List.mem_cons, List.not_mem_nil, or_false] at hmem
        rcases hmem with h | h | h | h
        · exact absurd h (hne _ (by omega) (by omega))
        · exact absurd h (hne _ (by omega) (by omega))
        · exact absurd h (hne _ (by omega) (by omega))
        · exact absurd h (hne _ (by omega) (by omega))

theorem mem_of_mem_encode {b : Char} (hb : b.toNat < 0x80) (hmem : b ∈ encode cs) : b ∈ cs := by
  rcases List.mem_flatMap.mp hmem with ⟨c, hc, hbc⟩
  rwa [eq_of_mem_encodeChar hb hbc]

/-- A byte of ASCII occurs in the bytes of a text as often as in the text. -/
theorem count_encode {b : Char} (hb : b.toNat < 0x80) (cs : List Char) :
    (encode cs).count b = cs.count b := by
  induction cs with
  | nil => rfl
  | cons c cs ih =>
    have hone : (encodeChar c).count b = [c].count b := by
      by_cases hc : c = b
      · subst hc
        rw [encodeChar, if_pos hb]
      · rw [List.count_eq_zero.mpr fun hmem => hc (eq_of_mem_encodeChar hb hmem).symm,
          List.count_eq_zero.mpr fun hmem => hc (List.mem_singleton.mp hmem).symm]
    rw [encode_cons, List.count_append, hone, ih, ← List.count_append, List.singleton_append]

theorem encodeChar_of_ascii {c : Char} (h : c.toNat < 0x80) : encodeChar c = [c] := by
  rw [encodeChar, if_pos h]

/-- The bytes of any other character are above 127, and the first one starts it. -/
theorem encodeChar_of_not_ascii {c : Char} (h : 0x80 ≤ c.toNat) :
    ∃ b bs, encodeChar c = b :: bs ∧ isContinuation b = false ∧
      ∀ b' ∈ encodeChar c, 0x80 ≤ b'.toNat := by
  have hall : ∀ b' ∈ encodeChar c, 0x80 ≤ b'.toNat := by
    intro b' hb'
    by_contra hlt
    have heq := eq_of_mem_encodeChar (Nat.lt_of_not_le hlt) hb'
    rw [heq] at hlt
    exact hlt h
  have hlt := toNat_lt c
  have hstart : ∀ n, 0xC0 ≤ n → n < 256 → isContinuation (Char.ofNat n) = false := by
    intro n hn hn'
    simp only [isContinuation, toNat_ofNat hn', decide_eq_false_iff_not]
    omega
  by_cases h₂ : c.toNat < 0x800
  · refine ⟨_, _, by rw [encodeChar, if_neg (by omega), if_pos h₂], ?_, hall⟩
    exact hstart _ (by omega) (by omega)
  · by_cases h₃ : c.toNat < 0x10000
    · refine ⟨_, _, by rw [encodeChar, if_neg (by omega), if_neg h₂, if_pos h₃], ?_, hall⟩
      exact hstart _ (by omega) (by omega)
    · refine ⟨_, _, by rw [encodeChar, if_neg (by omega), if_neg h₂, if_neg h₃], ?_, hall⟩
      exact hstart _ (by omega) (by omega)

theorem one_lt_length_encodeChar {c : Char} (h : 0x80 ≤ c.toNat) : 1 < (encodeChar c).length := by
  rw [encodeChar, if_neg (by omega)]
  split
  · exact Nat.lt_succ_self 1
  · split
    · exact Nat.lt_succ_of_lt (Nat.lt_succ_self 1)
    · exact Nat.lt_succ_of_lt (Nat.lt_succ_of_lt (Nat.lt_succ_self 1))

theorem size_append (cs cs' : List Char) : size (cs ++ cs') = size cs + size cs' := by
  rw [size, encode_append, List.length_append]
  rfl

theorem size_cons (c : Char) (cs : List Char) :
    size (c :: cs) = (encodeChar c).length + size cs := by
  rw [size, encode_cons, List.length_append]
  rfl

theorem length_le_size (cs : List Char) : cs.length ≤ size cs := length_le_encode cs

theorem size_eq_zero_iff {cs : List Char} : size cs = 0 ↔ cs = [] :=
  ⟨fun h => List.eq_nil_of_length_eq_zero (Nat.le_zero.mp (h ▸ length_le_encode cs)),
    fun h => by rw [h]; rfl⟩

theorem length_encodeChar_le (c : Char) : (encodeChar c).length ≤ 4 := by
  unfold encodeChar
  dsimp only
  split_ifs <;> simp

/-- Only a text of ASCII is its own bytes. -/
theorem ascii_of_encode (h : encode cs = cs) : ∀ c ∈ cs, c.toNat < 0x80 := by
  induction cs with
  | nil => simp
  | cons c cs ih =>
    by_cases hc : c.toNat < 0x80
    · rw [encode_cons, encodeChar_of_ascii hc, List.singleton_append, List.cons.injEq] at h
      exact List.forall_mem_cons.mpr ⟨hc, ih h.2⟩
    · have hlong := one_lt_length_encodeChar (Nat.le_of_not_lt hc)
      have hrest := length_le_encode cs
      have hlength := congrArg List.length h
      rw [encode_cons, List.length_append, List.length_cons] at hlength
      omega

/-- The bytes of a text start with its first character if that is ASCII, and with a byte above
    127 otherwise. -/
theorem encode_cases (cs : List Char) :
    cs = [] ∨ (∃ d t, cs = d :: t ∧ encode cs = d :: encode t) ∨
      ∃ d t b bs, cs = d :: t ∧ 0x80 ≤ d.toNat ∧ encode cs = b :: bs ∧ 0x80 ≤ b.toNat := by
  cases cs with
  | nil => exact .inl rfl
  | cons d t =>
    by_cases hd : d.toNat < 0x80
    · refine .inr (.inl ⟨d, t, rfl, ?_⟩)
      rw [encode_cons, encodeChar_of_ascii hd, List.singleton_append]
    · have hle := Nat.le_of_not_lt hd
      obtain ⟨b, bs, heq, -, hall⟩ := encodeChar_of_not_ascii hle
      refine .inr (.inr ⟨d, t, b, bs ++ encode t, rfl, hle, ?_, ?_⟩)
      · rw [encode_cons, heq, List.cons_append]
      · exact hall b (by rw [heq]; exact .head _)

theorem head?_encode {a : Char} (ha : a.toNat < 0x80) (cs : List Char) :
    (encode cs).head? = some a ↔ cs.head? = some a := by
  rcases encode_cases cs with rfl | ⟨d, t, rfl, heq⟩ | ⟨d, t, b, bs, rfl, hd, heq, hb⟩
  · rfl
  · rw [heq, List.head?_cons, List.head?_cons]
  · rw [heq, List.head?_cons, List.head?_cons, Option.some.injEq, Option.some.injEq]
    constructor
    · rintro rfl
      omega
    · rintro rfl
      omega

theorem tail_encode {a : Char} (ha : a.toNat < 0x80) (h : cs.head? = some a) :
    (encode cs).tail = encode cs.tail := by
  obtain ⟨t, rfl⟩ := List.head?_eq_some_iff.mp h
  rw [encode_cons, encodeChar_of_ascii ha]
  rfl

/-- A text is at a boundary between characters. -/
theorem isCharBoundary_encode (cs : List Char) : isCharBoundary (encode cs) = true := by
  cases cs with
  | nil => rfl
  | cons c cs =>
    rw [encode_cons]
    by_cases h : c.toNat < 0x80
    · rw [encodeChar_of_ascii h]
      simp only [isCharBoundary, isContinuation, List.singleton_append, List.head?_cons,
        Option.any_some, Bool.not_eq_true', decide_eq_false_iff_not]
      omega
    · obtain ⟨b, bs, heq, hb, -⟩ := encodeChar_of_not_ascii (Nat.le_of_not_lt h)
      rw [heq, List.cons_append, isCharBoundary, List.head?_cons, Option.any_some, hb]
      rfl

theorem slice_encode (cs rest : List Char) :
    slice (encode (cs ++ rest)) (encode rest) = some cs := by
  have hlength : (encode (cs ++ rest)).length - (encode rest).length = (encode cs).length := by
    rw [encode_append, List.length_append]
    omega
  have hle : (encode rest).length ≤ (encode (cs ++ rest)).length := by
    rw [encode_append, List.length_append]
    omega
  rw [slice, if_pos ⟨hle, isCharBoundary_encode _, isCharBoundary_encode _⟩, hlength,
    encode_append, List.take_left, decode_encode]

/-- Characters of ASCII are skipped in the bytes as in the text. -/
theorem dropWhile_encode {p : Char → Bool} (hp : ∀ b, p b = true → b.toNat < 0x80)
    (cs : List Char) : (encode cs).dropWhile p = encode (cs.dropWhile p) := by
  induction cs with
  | nil => rfl
  | cons c cs ih =>
    by_cases h : c.toNat < 0x80
    · rw [encode_cons, encodeChar_of_ascii h, List.singleton_append]
      by_cases hc : p c = true
      · rw [List.dropWhile_cons_of_pos hc, List.dropWhile_cons_of_pos hc, ih]
      · rw [List.dropWhile_cons_of_neg hc, List.dropWhile_cons_of_neg hc, encode_cons,
          encodeChar_of_ascii h, List.singleton_append]
    · have hle := Nat.le_of_not_lt h
      obtain ⟨b, bs, heq, -, hall⟩ := encodeChar_of_not_ascii hle
      have hb := hall b (by rw [heq]; exact .head _)
      have hpb : ¬ p b = true := fun hpb => absurd (hp b hpb) (Nat.not_lt.mpr hb)
      have hpc : ¬ p c = true := fun hpc => h (hp c hpc)
      rw [List.dropWhile_cons_of_neg hpc, encode_cons, heq, List.cons_append,
        List.dropWhile_cons_of_neg hpb]

end Utf8

import Mathlib.Data.List.Basic

/-!
# Bytes read as a text

A reader of UTF-8 that never fails: where the bytes are no character, it puts the replacement
character for the longest start of a character that it has seen, and reads on.  Bytes of a text
are read back as the text; where they end inside a character, that character is replaced.
-/

namespace LossyUtf8

variable {n : Nat}

/-! ## 1. The reader -/

/-- U+FFFD. -/
def replacement : Char := Char.ofNat 0xFFFD

/-- A character that has begun: its value so far, the number of its bytes that are missing and
    the bounds of the next one. -/
structure Pending where
  value : Nat
  more : Nat
  low : Nat
  high : Nat
  deriving DecidableEq, Repr

/-- A byte where no character has begun. -/
def start (b : Nat) : List Char × Option Pending :=
  if b < 0x80 then ([Char.ofNat b], none)
  else if b < 0xC2 then ([replacement], none)
  else if b < 0xE0 then ([], some ⟨b - 0xC0, 1, 0x80, 0xBF⟩)
  else if b < 0xF0 then
    ([], some ⟨b - 0xE0, 2, if b = 0xE0 then 0xA0 else 0x80, if b = 0xED then 0x9F else 0xBF⟩)
  else if b < 0xF5 then
    ([], some ⟨b - 0xF0, 3, if b = 0xF0 then 0x90 else 0x80, if b = 0xF4 then 0x8F else 0xBF⟩)
  else ([replacement], none)

/-- A byte: what is read, and what has begun after it. -/
def step : Option Pending → Nat → List Char × Option Pending
  | none, b => start b
  | some p, b =>
    if p.low ≤ b ∧ b ≤ p.high then
      let value := p.value * 64 + (b - 0x80)
      if p.more = 1 then ([Char.ofNat value], none)
      else ([], some ⟨value, p.more - 1, 0x80, 0xBF⟩)
    else (replacement :: (start b).1, (start b).2)

/-- Bytes, one after the other. -/
def feed : Option Pending → List UInt8 → List Char × Option Pending
  | p, [] => ([], p)
  | p, b :: bs =>
    ((step p b.toNat).1 ++ (feed (step p b.toNat).2 bs).1, (feed (step p b.toNat).2 bs).2)

/-- The end of the bytes. -/
def finish : Option Pending → List Char
  | none => []
  | some _ => [replacement]

def decode (bytes : List UInt8) : List Char := (feed none bytes).1 ++ finish (feed none bytes).2

/-- The bytes of a text. -/
def encode (cs : List Char) : List UInt8 := cs.flatMap String.utf8EncodeChar

example : decode [0x61, 0xC3, 0xA9, 0xE2, 0x82, 0x62, 0xFF] =
    ['a', 'é', replacement, 'b', replacement] := by decide

/-! ## 2. Texts -/

@[simp] theorem encode_nil : encode [] = [] := rfl

@[simp] theorem encode_cons (c : Char) (cs : List Char) :
    encode (c :: cs) = String.utf8EncodeChar c ++ encode cs := rfl

@[simp] theorem encode_append (cs cs' : List Char) : encode (cs ++ cs') = encode cs ++ encode cs' :=
  List.flatMap_append

theorem feed_append (p : Option Pending) (xs ys : List UInt8) :
    feed p (xs ++ ys) =
      ((feed p xs).1 ++ (feed (feed p xs).2 ys).1, (feed (feed p xs).2 ys).2) := by
  induction xs generalizing p with
  | nil => rfl
  | cons x xs ih =>
    rw [List.cons_append, feed, ih]
    simp [feed]

theorem toNat_ofNat (h : n < 256) : (UInt8.ofNat n).toNat = n := by
  rw [UInt8.toNat_ofNat', Nat.mod_eq_of_lt h]

/-- The code of a character is no surrogate. -/
theorem code_valid (c : Char) :
    c.val.toNat < 0xD800 ∨ 0xDFFF < c.val.toNat ∧ c.val.toNat < 0x110000 :=
  c.valid

theorem ofNat_code (c : Char) : Char.ofNat c.val.toNat = c := Char.ofNat_toNat c

theorem start_two (h : 2 ≤ n) (h' : n < 32) :
    start (n + 0xc0) = ([], some ⟨n, 1, 0x80, 0xBF⟩) := by
  unfold start
  rw [if_neg (by omega), if_neg (by omega), if_pos (by omega), Nat.add_sub_cancel]

theorem start_three (h : n < 16) : start (n + 0xe0) = ([], some ⟨n, 2,
    if n + 0xe0 = 0xE0 then 0xA0 else 0x80, if n + 0xe0 = 0xED then 0x9F else 0xBF⟩) := by
  unfold start
  rw [if_neg (by omega), if_neg (by omega), if_neg (by omega), if_pos (by omega),
    Nat.add_sub_cancel]

theorem start_four (h : n < 5) : start (n + 0xf0) = ([], some ⟨n, 3,
    if n + 0xf0 = 0xF0 then 0x90 else 0x80, if n + 0xf0 = 0xF4 then 0x8F else 0xBF⟩) := by
  unfold start
  rw [if_neg (by omega), if_neg (by omega), if_neg (by omega), if_neg (by omega),
    if_pos (by omega), Nat.add_sub_cancel]

/-- A byte that goes on with a character. -/
theorem step_more {p : Pending} (hlow : p.low ≤ n + 0x80) (hhigh : n + 0x80 ≤ p.high)
    (hmore : p.more ≠ 1) :
    step (some p) (n + 0x80) = ([], some ⟨p.value * 64 + n, p.more - 1, 0x80, 0xBF⟩) := by
  unfold step
  dsimp only
  rw [if_pos ⟨hlow, hhigh⟩, if_neg hmore, Nat.add_sub_cancel]

/-- The last byte of a character. -/
theorem step_last {p : Pending} (hlow : p.low ≤ n + 0x80) (hhigh : n + 0x80 ≤ p.high)
    (hmore : p.more = 1) : step (some p) (n + 0x80) = ([Char.ofNat (p.value * 64 + n)], none) := by
  unfold step
  dsimp only
  rw [if_pos ⟨hlow, hhigh⟩, if_pos hmore, Nat.add_sub_cancel]

/-- A character is read. -/
theorem feed_encodeChar (c : Char) : feed none (String.utf8EncodeChar c) = ([c], none) := by
  have hvalid := code_valid c
  have hback := ofNat_code c
  unfold String.utf8EncodeChar
  dsimp only
  generalize c.val.toNat = v at hvalid hback
  split
  · next h =>
    simp only [feed, step, start]
    rw [toNat_ofNat (by omega), if_pos (by omega), hback]
    rfl
  · next h₁ =>
    have hb₀ : (UInt8.ofNat (v % 0x40 + 0x80)).toNat = v % 64 + 0x80 := toNat_ofNat (by omega)
    have hb₁ : (UInt8.ofNat (v / 64 % 0x40 + 0x80)).toNat = v / 64 % 64 + 0x80 :=
      toNat_ofNat (by omega)
    have hb₂ : (UInt8.ofNat (v / 4096 % 0x40 + 0x80)).toNat = v / 4096 % 64 + 0x80 :=
      toNat_ofNat (by omega)
    split
    · next h₂ =>
      have hb : (UInt8.ofNat (v / 64 % 0x20 + 0xc0)).toNat = v / 64 + 0xc0 := by
        rw [toNat_ofNat (by omega)]
        omega
      have hvalue : v / 64 * 64 + v % 64 = v := by omega
      simp only [feed, step.eq_1, hb, hb₀, start_two (show 2 ≤ v / 64 by omega) (by omega)]
      rw [step_last (by dsimp only; omega) (by dsimp only; omega) rfl, hvalue, hback]
      rfl
    · next h₂ =>
      split
      · next h₃ =>
        have hb : (UInt8.ofNat (v / 4096 % 0x10 + 0xe0)).toNat = v / 4096 + 0xe0 := by
          rw [toNat_ofNat (by omega)]
          omega
        have hvalue : (v / 4096 * 64 + v / 64 % 64) * 64 + v % 64 = v := by omega
        simp only [feed, step.eq_1, hb, hb₀, hb₁, start_three (show v / 4096 < 16 by omega)]
        rw [step_more (by dsimp only; split <;> omega) (by dsimp only; split <;> omega)
          (by simp)]
        dsimp only
        rw [step_last (by dsimp only; omega) (by dsimp only; omega) rfl, hvalue, hback]
        rfl
      · next h₃ =>
        have hb : (UInt8.ofNat (v / 262144 % 0x08 + 0xf0)).toNat = v / 262144 + 0xf0 := by
          rw [toNat_ofNat (by omega)]
          omega
        have hvalue : ((v / 262144 * 64 + v / 4096 % 64) * 64 + v / 64 % 64) * 64 + v % 64 = v := by
          omega
        simp only [feed, step.eq_1, hb, hb₀, hb₁, hb₂, start_four (show v / 262144 < 5 by omega)]
        rw [step_more (by dsimp only; split <;> omega) (by dsimp only; split <;> omega)
          (by simp)]
        dsimp only
        rw [step_more (by dsimp only; omega) (by dsimp only; omega) (by simp)]
        dsimp only
        rw [step_last (by dsimp only; omega) (by dsimp only; omega) rfl, hvalue, hback]
        rfl

theorem feed_encode (cs : List Char) (bs : List UInt8) :
    feed none (encode cs ++ bs) = (cs ++ (feed none bs).1, (feed none bs).2) := by
  induction cs with
  | nil => rfl
  | cons c cs ih => rw [encode_cons, List.append_assoc, feed_append, feed_encodeChar, ih]; rfl

/-- **The bytes of a text are read back as the text.** -/
theorem decode_encode (cs : List Char) : decode (encode cs) = cs := by
  have h := feed_encode cs []
  rw [List.append_nil] at h
  rw [decode, h]
  simp [feed, finish]

theorem zero_ne_ofNat (h : 0x80 ≤ n) (h' : n < 256) : (0 : UInt8) ≠ UInt8.ofNat n := by
  intro heq
  have hzero := congrArg UInt8.toNat heq
  rw [toNat_ofNat h', UInt8.toNat_zero] at hzero
  omega

/-- Only U+0000 has a byte that is zero. -/
theorem zero_mem_encodeChar {c : Char} (h : 0 ∈ String.utf8EncodeChar c) : c = Char.ofNat 0 := by
  have hback := ofNat_code c
  have hvalid := code_valid c
  unfold String.utf8EncodeChar at h
  dsimp only at h
  generalize c.val.toNat = v at h hback hvalid
  split at h
  · next hv =>
    have hzero := congrArg UInt8.toNat (List.mem_singleton.mp h)
    rw [toNat_ofNat (by omega), UInt8.toNat_zero] at hzero
    rw [← hback, ← hzero]
  · exfalso
    split at h
    · rcases List.mem_pair.mp h with h | h
      · exact zero_ne_ofNat (by omega) (by omega) h
      · exact zero_ne_ofNat (by omega) (by omega) h
    · split at h
      · rcases List.mem_cons.mp h with h | h
        · exact zero_ne_ofNat (by omega) (by omega) h
        · rcases List.mem_pair.mp h with h | h
          · exact zero_ne_ofNat (by omega) (by omega) h
          · exact zero_ne_ofNat (by omega) (by omega) h
      · rcases List.mem_cons.mp h with h | h
        · exact zero_ne_ofNat (by omega) (by omega) h
        · rcases List.mem_cons.mp h with h | h
          · exact zero_ne_ofNat (by omega) (by omega) h
          · rcases List.mem_pair.mp h with h | h
            · exact zero_ne_ofNat (by omega) (by omega) h
            · exact zero_ne_ofNat (by omega) (by omega) h

theorem zero_mem_encode {cs : List Char} : 0 ∈ encode cs ↔ Char.ofNat 0 ∈ cs := by
  unfold encode
  rw [List.mem_flatMap]
  constructor
  · rintro ⟨c, hc, hzero⟩
    rw [← zero_mem_encodeChar hzero]
    exact hc
  · intro h
    exact ⟨_, h, by decide⟩

/-! ## 3. Bytes that end inside a character -/

theorem start_quiet {b : Nat} {s : Option Pending} (h : start b = ([], s)) : s ≠ none := by
  rintro rfl
  unfold start at h
  split at h
  · cases h
  · split at h
    · cases h
    · split at h
      · cases h
      · split at h
        · cases h
        · split at h <;> cases h

/-- Where nothing is read, a character has begun. -/
theorem step_quiet {p s : Option Pending} {b : Nat} (h : step p b = ([], s)) : s ≠ none := by
  cases p with
  | none => exact start_quiet h
  | some p =>
    unfold step at h
    dsimp only at h
    split at h
    · split at h
      · cases h
      · cases h
        exact Option.some_ne_none _
    · cases h

theorem feed_quiet {p : Option Pending} {bs : List UInt8} (h : feed p bs = ([], none)) :
    p = none ∧ bs = [] := by
  induction bs generalizing p with
  | nil =>
    injection h with _ h
    exact ⟨h, rfl⟩
  | cons b bs ih =>
    rw [feed] at h
    injection h with hout hstate
    obtain ⟨hstep, hrest⟩ := List.append_eq_nil_iff.mp hout
    obtain ⟨hnone, -⟩ := ih (Prod.ext hrest hstate)
    exact absurd hnone (step_quiet (Prod.ext hstep rfl))

/-- A part of the bytes of a character begins a character. -/
theorem feed_cut {c : Char} {xs ys : List UInt8} (h : String.utf8EncodeChar c = xs ++ ys)
    (hxs : xs ≠ []) (hys : ys ≠ []) : ∃ p, feed none xs = ([], some p) := by
  have hwhole := feed_encodeChar c
  rw [h, feed_append] at hwhole
  injection hwhole with hout hstate
  cases hfirst : (feed none xs).1 with
  | nil =>
    cases hpending : (feed none xs).2 with
    | none => exact absurd (feed_quiet (Prod.ext hfirst hpending)).2 hxs
    | some p => exact ⟨p, Prod.ext hfirst hpending⟩
  | cons d ds =>
    rw [hfirst, List.cons_append] at hout
    injection hout with _ hrest
    exact absurd (feed_quiet (Prod.ext (List.append_eq_nil_iff.mp hrest).2 hstate)).2 hys

/-- A part of the bytes of a text ends between two characters or inside one. -/
theorem encode_cut {cs : List Char} {xs ys : List UInt8} (h : encode cs = xs ++ ys) :
    (∃ before after, cs = before ++ after ∧ xs = encode before) ∨
      ∃ before c after part rest, cs = before ++ c :: after ∧ xs = encode before ++ part ∧
        String.utf8EncodeChar c = part ++ rest ∧ part ≠ [] ∧ rest ≠ [] := by
  induction cs generalizing xs with
  | nil =>
    left
    exact ⟨[], [], rfl, (List.append_eq_nil_iff.mp h.symm).1⟩
  | cons c cs ih =>
    rw [encode_cons] at h
    rcases List.append_eq_append_iff.mp h with ⟨more, rfl, hmore⟩ | ⟨rest, hchar, hrest⟩
    · rcases ih hmore with ⟨before, after, rfl, rfl⟩ |
        ⟨before, d, after, part, rest, rfl, rfl, hchar, hpart, hrest⟩
      · exact .inl ⟨c :: before, after, rfl, rfl⟩
      · right
        exact ⟨c :: before, d, after, part, rest, rfl, by simp, hchar, hpart, hrest⟩
    · by_cases hxs : xs = []
      · exact .inl ⟨[], c :: cs, rfl, hxs⟩
      · by_cases hend : rest = []
        · left
          rw [hend, List.append_nil] at hchar
          exact ⟨[c], cs, rfl, by simp [hchar]⟩
        · exact .inr ⟨[], c, cs, xs, rest, rfl, rfl, hchar, hxs, hend⟩

/-- **What is read of a part of the bytes of a text**: the characters that are there, and the
    replacement of one that is cut. -/
theorem decode_cut {cs : List Char} {xs ys : List UInt8} (h : encode cs = xs ++ ys) :
    (∃ before after, cs = before ++ after ∧ xs = encode before ∧ decode xs = before) ∨
      ∃ before c after part rest, cs = before ++ c :: after ∧ xs = encode before ++ part ∧
        String.utf8EncodeChar c = part ++ rest ∧ part ≠ [] ∧ rest ≠ [] ∧
          decode xs = before ++ [replacement] := by
  rcases encode_cut h with ⟨before, after, hcs, rfl⟩ |
    ⟨before, c, after, part, rest, hcs, rfl, hchar, hpart, hrest⟩
  · exact .inl ⟨before, after, hcs, rfl, decode_encode before⟩
  · right
    refine ⟨before, c, after, part, rest, hcs, rfl, hchar, hpart, hrest, ?_⟩
    obtain ⟨p, hp⟩ := feed_cut hchar hpart hrest
    rw [decode, feed_encode, hp, List.append_nil]
    rfl

end LossyUtf8

import Wasmsh.Substrings

/-!
# Pattern removal

`${v#pat}`, `${v##pat}`, `${v%pat}` and `${v%%pat}` try every offset of the value and cut it
there, also inside a character of several bytes.  On a value of ASCII they remove the
shortest or the longest part that the pattern matches; on any other they panic.
-/

namespace Wasmsh.Params

open Globs Wildcards
open Utf8 (size)

/-! ## 1. Cuts -/

/-- A cut at an offset is a cut into two texts, the first of that size. -/
theorem cutAt_iff {n : Nat} {t front back : List Char} :
    cutAt n t = some (front, back) ↔ front ++ back = t ∧ size front = n := by
  induction n, t using cutAt.induct generalizing front with
  | case1 t =>
    rw [cutAt, Utf8.size_eq_zero_iff, Option.some_inj, Prod.mk.injEq]
    constructor
    · rintro ⟨rfl, rfl⟩
      exact ⟨rfl, rfl⟩
    · rintro ⟨heq, rfl⟩
      exact ⟨rfl, heq.symm⟩
  | case2 n =>
    rw [cutAt, List.append_eq_nil_iff]
    constructor
    · intro h
      cases h
    · rintro ⟨⟨rfl, -⟩, hsize⟩
      cases hsize
  | case3 n c t hfits ih =>
    rw [cutAt, if_pos hfits, Option.map_eq_some_iff]
    constructor
    · rintro ⟨⟨f, b⟩, he, heq⟩
      obtain ⟨rfl, rfl⟩ := Prod.mk.inj heq
      obtain ⟨rfl, hsize⟩ := ih.mp he
      refine ⟨rfl, ?_⟩
      rw [Utf8.size_cons, hsize]
      omega
    · rintro ⟨heq, hsize⟩
      cases front with
      | nil => cases hsize
      | cons c' f =>
        rw [List.cons_append, List.cons.injEq] at heq
        obtain ⟨rfl, rfl⟩ := heq
        rw [Utf8.size_cons] at hsize
        exact ⟨(f, back), ih.mpr ⟨rfl, by omega⟩, rfl⟩
  | case4 n c t hlong =>
    rw [cutAt, if_neg hlong]
    constructor
    · intro h
      cases h
    · rintro ⟨heq, hsize⟩
      cases front with
      | nil => cases hsize
      | cons c' f =>
        rw [List.cons_append, List.cons.injEq] at heq
        rw [Utf8.size_cons, heq.1] at hsize
        omega

/-- Every offset behind characters of ASCII is a cut. -/
theorem cutAt_ascii {t : List Char} {n : Nat} (h : ∀ c ∈ t.take n, c.toNat < 0x80)
    (hn : n ≤ t.length) : cutAt n t = some (t.take n, t.drop n) := by
  rw [cutAt_iff, size, Utf8.encode_of_ascii h, List.length_take]
  exact ⟨List.take_append_drop n t, Nat.min_eq_left hn⟩

/-- A text that is not ASCII has an offset inside a character, and none before. -/
theorem cutAt_inside {t : List Char} (h : ¬∀ c ∈ t, c.toNat < 0x80) :
    ∃ n < t.length, (∀ c ∈ t.take n, c.toNat < 0x80) ∧ n + 1 < size t ∧ cutAt (n + 1) t = none := by
  induction t with
  | nil => exact absurd (fun c hc => nomatch hc) h
  | cons c t ih =>
    by_cases hc : c.toNat < 0x80
    · obtain ⟨n, hn, hbefore, hsize, hnone⟩ := ih fun ht => h fun d hd =>
        (List.mem_cons.mp hd).elim (fun heq => heq ▸ hc) (ht d)
      refine ⟨n + 1, Nat.succ_lt_succ hn, ?_, ?_, ?_⟩
      · rw [List.take_succ_cons]
        exact fun d hd => (List.mem_cons.mp hd).elim (fun heq => heq ▸ hc) (hbefore d)
      · rw [Utf8.size_cons, Utf8.encodeChar_of_ascii hc, List.length_singleton]
        omega
      · rw [cutAt, Utf8.encodeChar_of_ascii hc, List.length_singleton, if_pos (by omega),
          Nat.add_sub_cancel, hnone]
        rfl
    · have hlong := Utf8.one_lt_length_encodeChar (Nat.le_of_not_lt hc)
      refine ⟨0, Nat.succ_pos _, (fun d hd => nomatch hd), ?_, ?_⟩
      · rw [Utf8.size_cons]
        omega
      · rw [cutAt, if_neg (by omega)]

/-! ## 2. The best of the offsets -/

/-- The best of some offsets that pass a test, if one does. -/
def BestOf (passes : Nat → Prop) (better : Nat → Nat → Bool) (seen : List Nat) :
    Option Nat → Prop
  | none => ∀ n ∈ seen, ¬passes n
  | some best => best ∈ seen ∧ passes best ∧ ∀ n ∈ seen, passes n → better n best = false

section

variable {val pattern : List Char} {part : List Char × List Char → List Char}
variable {better : Nat → Nat → Bool}

/-- The cut at an offset has a part that the pattern matches. -/
def Passes (val pattern : List Char) (part : List Char × List Char → List Char) (n : Nat) :
    Prop :=
  ∃ e, cutAt n val = some e ∧ globMatches pattern (part e) = true

theorem stripLoop_panics {offsets : List Nat} {chosen : Option Nat}
    (h : ∃ n ∈ offsets, cutAt n val = none) :
    stripLoop val pattern part better offsets chosen = none := by
  induction offsets generalizing chosen with
  | nil =>
    obtain ⟨n, hn, -⟩ := h
    cases hn
  | cons pos more ih =>
    rw [stripLoop]
    split
    · rfl
    · next e he =>
      obtain ⟨n, hn, hnone⟩ := h
      rcases List.mem_cons.mp hn with rfl | hn
      · rw [hnone] at he
        cases he
      · exact ih ⟨n, hn, hnone⟩

theorem stripLoop_best (hirrefl : ∀ n, better n n = false)
    (htrans : ∀ m n b, better m b = true → better n b = false → better n m = false)
    {offsets : List Nat} {chosen : Option Nat} {seen : List Nat}
    (hall : ∀ n ∈ offsets, ∃ e, cutAt n val = some e)
    (hchosen : BestOf (Passes val pattern part) better seen chosen) :
    ∃ best, stripLoop val pattern part better offsets chosen = some best ∧
      BestOf (Passes val pattern part) better (seen ++ offsets) best := by
  induction offsets generalizing chosen seen with
  | nil => exact ⟨chosen, rfl, by rwa [List.append_nil]⟩
  | cons pos more ih =>
    obtain ⟨e, he⟩ := hall pos List.mem_cons_self
    have hpasses : Passes val pattern part pos ↔ globMatches pattern (part e) = true := by
      constructor
      · rintro ⟨e', he', hmatches⟩
        rw [he] at he'
        exact Option.some.inj he' ▸ hmatches
      · exact fun hmatches => ⟨e, he, hmatches⟩
    rw [stripLoop, he]
    dsimp only
    rw [show seen ++ pos :: more = (seen ++ [pos]) ++ more by simp]
    apply ih fun n hn => hall n (List.mem_cons_of_mem _ hn)
    split
    · next hbetter =>
      rw [Bool.and_eq_true] at hbetter
      obtain ⟨hmatches, hbetter⟩ := hbetter
      refine ⟨List.mem_append_right _ (List.mem_singleton_self pos), hpasses.mpr hmatches, ?_⟩
      intro n hn hpass
      rcases List.mem_append.mp hn with hn | hn
      · cases chosen with
        | none => exact absurd hpass (hchosen n hn)
        | some b => exact htrans pos n b hbetter (hchosen.2.2 n hn hpass)
      · rw [List.mem_singleton.mp hn]
        exact hirrefl pos
    · next hnot =>
      cases chosen with
      | none =>
        intro n hn hpass
        rcases List.mem_append.mp hn with hn | hn
        · exact hchosen n hn hpass
        · obtain rfl := List.mem_singleton.mp hn
          exact hnot (by rw [hpasses.mp hpass]; rfl)
      | some b =>
        refine ⟨List.mem_append_left _ hchosen.1, hchosen.2.1, ?_⟩
        intro n hn hpass
        rcases List.mem_append.mp hn with hn | hn
        · exact hchosen.2.2 n hn hpass
        · obtain rfl := List.mem_singleton.mp hn
          rw [hpasses.mp hpass, Bool.true_and, Option.all_some, Bool.not_eq_true] at hnot
          exact hnot

end

/-! ## 3. What is removed -/

/-- The texts that a pattern matches: those of its elements, byte by byte. -/
def Means (pattern t : List Char) : Prop :=
  Matches (simpleReader.elements (Utf8.encode pattern)) (Utf8.encode t)

theorem globMatches_iff (pattern t : List Char) : globMatches pattern t = true ↔ Means pattern t :=
  simpleGlobMatch_iff _ _

/-- The part of one cut is at least as good as that of another: as long where the longest is
    wanted, and as short where the shortest is. -/
def AsGood (greedy : Bool) (p p' : List Char) : Prop :=
  if greedy then p'.length ≤ p.length else p.length ≤ p'.length

/-- What is left of a value without its best part of a property; nothing when no part has the
    property. -/
def Removed (P : List Char → Prop) (greedy : Bool) (val : List Char)
    (part kept : List Char × List Char → List Char) : Option (List Char) → Prop
  | none => ∀ e : List Char × List Char, e.1 ++ e.2 = val → ¬P (part e)
  | some left => ∃ e : List Char × List Char, e.1 ++ e.2 = val ∧ P (part e) ∧ kept e = left ∧
      ∀ e' : List Char × List Char, e'.1 ++ e'.2 = val → P (part e') →
        AsGood greedy (part e) (part e')

section

variable {val : List Char} (pattern : List Char) (greedy : Bool)
variable {part kept : List Char × List Char → List Char} {better : Nat → Nat → Bool}

theorem size_of_cut (h : ∀ c ∈ val, c.toNat < 0x80) {e : List Char × List Char}
    (he : e.1 ++ e.2 = val) : size e.1 = e.1.length ∧ size e.1 ≤ val.length := by
  have hfront : ∀ c ∈ e.1, c.toNat < 0x80 := fun c hc =>
    h c (he ▸ List.mem_append_left _ hc)
  rw [size, Utf8.encode_of_ascii hfront, ← he, List.length_append]
  exact ⟨rfl, Nat.le_add_right _ _⟩

/-- The loop over the offsets of a value of ASCII, and the cut at the one that it chose. -/
theorem strip_removes (h : ∀ c ∈ val, c.toNat < 0x80) (hirrefl : ∀ n, better n n = false)
    (htrans : ∀ m n b, better m b = true → better n b = false → better n m = false)
    (hbetter : ∀ e e' : List Char × List Char, e.1 ++ e.2 = val → e'.1 ++ e'.2 = val →
      better (size e'.1) (size e.1) = false → AsGood greedy (part e) (part e')) :
    ∃ r, (stripLoop val pattern part better (List.range (size val + 1)) none).bind
        (keptAt val kept) = some r ∧
      Removed (Means pattern) greedy val part kept r := by
  have hsize : size val = val.length := by rw [size, Utf8.encode_of_ascii h]
  have hall : ∀ n ∈ List.range (size val + 1), ∃ e, cutAt n val = some e := fun n hn =>
    ⟨_, cutAt_ascii (fun c hc => h c (List.mem_of_mem_take hc))
      (by have := List.mem_range.mp hn; omega)⟩
  have hnone : BestOf (Passes val pattern part) better [] none := fun _ hn =>
    absurd hn List.not_mem_nil
  obtain ⟨best, hbest, hof⟩ := stripLoop_best hirrefl htrans hall hnone
  rw [List.nil_append] at hof
  have hpasses : ∀ e : List Char × List Char, e.1 ++ e.2 = val → Means pattern (part e) →
      size e.1 ∈ List.range (size val + 1) ∧ Passes val pattern part (size e.1) := by
    intro e he hmeans
    refine ⟨List.mem_range.mpr ?_, e, cutAt_iff.mpr ⟨he, rfl⟩, (globMatches_iff _ _).mpr hmeans⟩
    have := (size_of_cut h he).2
    omega
  rw [hbest, Option.bind_some]
  cases best with
  | none =>
    refine ⟨none, rfl, ?_⟩
    intro e he hmeans
    exact hof _ (hpasses e he hmeans).1 (hpasses e he hmeans).2
  | some pos =>
    obtain ⟨-, ⟨e, hcut, hmatches⟩, hfirst⟩ := hof
    obtain ⟨he, rfl⟩ := cutAt_iff.mp hcut
    refine ⟨some (kept e), by rw [keptAt, hcut]; rfl, e, he, (globMatches_iff _ _).mp hmatches, rfl,
      ?_⟩
    intro e' he' hmeans
    exact hbetter e e' he he' (hfirst _ (hpasses e' he' hmeans).1 (hpasses e' he' hmeans).2)

/-- An offset inside a character is tried. -/
theorem strip_panics (h : ¬∀ c ∈ val, c.toNat < 0x80) :
    (stripLoop val pattern part better (List.range (size val + 1)) none).bind
      (keptAt val kept) = none := by
  obtain ⟨n, -, -, hn, hnone⟩ := cutAt_inside h
  rw [stripLoop_panics ⟨n + 1, List.mem_range.mpr (by omega), hnone⟩]
  rfl

end

/-- `strip_prefix_glob` removes the shortest or the longest front that the pattern matches, and
    `strip_suffix_glob` the shortest or the longest end, on the values of ASCII and on no
    others: there they panic. -/
theorem strip_glob_exact_iff (val pattern : List Char) (greedy : Bool) :
    ((∃ r, stripPrefixGlob val pattern greedy = some r ∧
        Removed (Means pattern) greedy val (·.1) (·.2) r) ↔ ∀ c ∈ val, c.toNat < 0x80) ∧
      ((∃ r, stripSuffixGlob val pattern greedy = some r ∧
        Removed (Means pattern) greedy val (·.2) (·.1) r) ↔ ∀ c ∈ val, c.toNat < 0x80) := by
  constructor
  · constructor
    · rintro ⟨r, hr, -⟩
      by_contra h
      rw [stripPrefixGlob, strip_panics pattern h] at hr
      cases hr
    · intro h
      apply strip_removes pattern greedy h
      · intro n
        cases greedy <;> simp
      · intro m n b
        cases greedy <;> simp <;> omega
      · intro e e' he he' hnot
        have hsize := (size_of_cut h he).1
        have hsize' := (size_of_cut h he').1
        cases greedy <;> simp [AsGood] at hnot ⊢ <;> omega
  · constructor
    · rintro ⟨r, hr, -⟩
      by_contra h
      rw [stripSuffixGlob, strip_panics pattern h] at hr
      cases hr
    · intro h
      apply strip_removes pattern greedy h
      · intro n
        cases greedy <;> simp
      · intro m n b
        cases greedy <;> simp <;> omega
      · intro e e' he he' hnot
        have hsize := (size_of_cut h he).1
        have hsize' := (size_of_cut h he').1
        have hlength := congrArg List.length he
        have hlength' := congrArg List.length he'
        rw [List.length_append] at hlength hlength'
        cases greedy <;> simp [AsGood] at hnot ⊢ <;> omega

/-- `${v#x}` of `é` panics. -/
theorem strip_accented_letter :
    ¬∀ (val pattern : List Char) (greedy : Bool),
      (∃ r, stripPrefixGlob val pattern greedy = some r ∧
        Removed (Means pattern) greedy val (·.1) (·.2) r) ∧
      ∃ r, stripSuffixGlob val pattern greedy = some r ∧
        Removed (Means pattern) greedy val (·.2) (·.1) r := by
  intro h
  obtain ⟨⟨r, hr, -⟩, -⟩ := h ['é'] ['x'] false
  have hpanics : stripPrefixGlob ['é'] ['x'] false = none := by decide
  rw [hpanics] at hr
  cases hr

end Wasmsh.Params

import Wasmsh.CommandTemplates

/-!
# The terms that `seq` prints

`util_seq` of `wasmsh-utils/src/data_ops.rs` on its three numbers, with or without `-w`; a
panic is a missing result.
-/

namespace Wasmsh.SeqTerms

/-! ## 1. The utility -/

def Fits (i : Int) : Prop := -2 ^ 63 ≤ i ∧ i < 2 ^ 63

instance (i : Int) : Decidable (Fits i) := inferInstanceAs (Decidable (_ ∧ _))

/-- `SEQ_MAX_ITERATIONS`. -/
def seqMaxIterations : Nat := 10000000

/-- The sign of a number, and its digits. -/
def sign (j : Int) : List Char := if j < 0 then ['-'] else []

def digits (j : Int) : List Char := Nat.toDigits 10 j.natAbs

def numeral (j : Int) : List Char := sign j ++ digits j

/-- `{j:0>width$}`. -/
def padded (width : Nat) (j : Int) : List Char :=
  List.replicate (width - (numeral j).length) '0' ++ numeral j

def Within (step stop j : Int) : Prop := (0 < step ∧ j ≤ stop) ∨ (step < 0 ∧ stop ≤ j)

instance (step stop j : Int) : Decidable (Within step stop j) :=
  inferInstanceAs (Decidable (_ ∨ _))

/-- The values from `j` on, with the turns that are left. -/
def seqLoop (step stop : Int) : Nat → Int → Option (List Int)
  | 0, _ => some []
  | turns + 1, j =>
    if Within step stop j then
      if Fits (j + step) then (seqLoop step stop turns (j + step)).map (j :: ·) else none
    else some []

variable (equalWidth : Bool) (start step stop : Int64)

def maxWidth : Nat := (Nat.toDigits 10 (max start.toInt.natAbs stop.toInt.natAbs)).length

/-- `start.abs().max(end.abs())`, whose two absolute values have to fit. -/
def seqWidth : Option Nat :=
  if equalWidth then
    if Fits |start.toInt| ∧ Fits |stop.toInt| then some (maxWidth start stop) else none
  else some 0

/-- The output and the status; a step of zero is refused. -/
def utilSeq : Option (List Char × Nat) :=
  if step = 0 then some ([], 1)
  else (seqWidth equalWidth start stop).bind fun width =>
    (seqLoop step.toInt stop.toInt seqMaxIterations start.toInt).map fun vals =>
      (['\n'].intercalate (vals.map (padded width)) ++ ['\n'], 0)

/-! ## 2. The terms -/

/-- How many terms do not pass the end. -/
def termCount (step stop j : Int) : Nat :=
  if Within step stop j then (stop - j).natAbs / step.natAbs + 1 else 0

def terms (step stop j : Int) : List Int :=
  (List.range (termCount step stop j)).map fun k : Nat => j + k * step

/-- A number with zeros up to a width between its sign and its digits. -/
def signPadded (width : Nat) (j : Int) : List Char :=
  sign j ++ (List.replicate (width - (numeral j).length) '0' ++ digits j)

def allTerms : List Int := terms step.toInt stop.toInt start.toInt

/-- No panic, and a line for each term unless there are too many; under `-w` they have one
    width. -/
structure Exact : Prop where
  returns : (utilSeq equalWidth start step stop).isSome
  prints : (allTerms start step stop).length ≤ seqMaxIterations → ∃ width : Nat,
    (if equalWidth then ∀ j ∈ allTerms start step stop, (numeral j).length ≤ width
      else width = 0) ∧
    utilSeq equalWidth start step stop =
      some (printLines ((allTerms start step stop).map (signPadded width)), 0)

/-- The signs do not get in the way of the zeros. -/
def Even : Prop :=
  (∀ j ∈ allTerms start step stop, 0 ≤ j ∨ (numeral j).length = maxWidth start stop) ∨
    ∀ j ∈ allTerms start step stop, j < 0 ∧ (numeral j).length = maxWidth start stop + 1

/-- The absolute values and the number after the last term fit, and there is a term. -/
structure Plain : Prop where
  widths : equalWidth = true → Fits |start.toInt| ∧ Fits |stop.toInt|
  some_term : allTerms start step stop ≠ []
  next : (allTerms start step stop).length ≤ seqMaxIterations →
    Fits (start.toInt + (allTerms start step stop).length * step.toInt)
  even : equalWidth = true → (allTerms start step stop).length ≤ seqMaxIterations →
    Even start step stop

/-! ## 3. The loop -/

variable {start step stop} {s e j : Int}

theorem lt_termCount (k : Nat) : k < termCount s e j ↔ Within s e (j + k * s) := by
  obtain ⟨n, hn⟩ : ∃ n, n = s.natAbs := ⟨_, rfl⟩
  have hdiv : 0 < n → (k ≤ (e - j).natAbs / n ↔ k * n ≤ (e - j).natAbs) :=
    Nat.le_div_iff_mul_le
  have hmul : 0 ≤ s ∧ (k : Int) * s = (k * n : Nat) ∨ s < 0 ∧ (k : Int) * s = -(k * n : Nat) := by
    rcases lt_or_ge s 0 with hs | hs
    · exact .inr ⟨hs, by rw [show s = -n by omega, Nat.cast_mul, Int.mul_neg]⟩
    · exact .inl ⟨hs, by rw [show s = n by omega, Nat.cast_mul]⟩
  rw [termCount, ← hn]
  by_cases hw : Within s e j
  · rw [if_pos hw]
    unfold Within at hw ⊢
    omega
  · rw [if_neg hw]
    unfold Within at hw ⊢
    omega

theorem termCount_succ (h : Within s e j) : termCount s e j = termCount s e (j + s) + 1 := by
  have hshift : ∀ k : Nat, k + 1 < termCount s e j ↔ k < termCount s e (j + s) := by
    intro k
    rw [lt_termCount, lt_termCount]
    have heq : j + (k + 1 : Nat) * s = j + s + k * s := by push_cast; ring
    rw [heq]
  have hpos := (lt_termCount 0).mpr (by simpa using h)
  have hle := hshift (termCount s e (j + s))
  have hge := hshift (termCount s e (j + s) - 1)
  omega

theorem terms_succ (h : Within s e j) : terms s e j = j :: terms s e (j + s) := by
  rw [terms, termCount_succ h, List.range_succ_eq_map, List.map_cons, List.map_map]
  simp only [Nat.cast_zero, Int.zero_mul, Int.add_zero, terms, List.cons.injEq, true_and]
  congr 1
  funext k
  simp only [Function.comp_apply, Nat.succ_eq_add_one, Nat.cast_add, Nat.cast_one]
  ring

theorem fits_of_within (he : Fits e) (hj : Fits j) (h : Within s e (j + s)) : Fits (j + s) := by
  unfold Fits Within at *
  omega

/-- The loop prints the terms, except that the number after the last one may not fit. -/
theorem seqLoop_eq (turns : Nat) (he : Fits e) (hj : Fits j) : seqLoop s e turns j =
    if termCount s e j ≤ turns ∧ termCount s e j ≠ 0 ∧ ¬Fits (j + termCount s e j * s) then none
    else some ((terms s e j).take turns) := by
  induction turns generalizing j with
  | zero =>
    rw [seqLoop, if_neg (by omega)]
    rfl
  | succ turns ih =>
    rw [seqLoop]
    by_cases h : Within s e j
    · have hnext : j + (termCount s e (j + s) + 1 : Nat) * s =
          j + s + termCount s e (j + s) * s := by push_cast; ring
      rw [if_pos h, termCount_succ h, terms_succ h, hnext, List.take_succ_cons]
      by_cases hfits : Fits (j + s)
      · rw [if_pos hfits, ih hfits]
        by_cases hzero : termCount s e (j + s) = 0
        · simp [hzero, hfits]
        · simp only [hzero, Nat.add_le_add_iff_right, ne_eq, not_false_eq_true, true_and,
            Nat.add_one_ne_zero]
          split <;> rfl
      · have hzero : termCount s e (j + s) = 0 := by
          rw [termCount, if_neg fun hw => hfits (fits_of_within he hj hw)]
        rw [if_neg hfits, hzero, if_pos ⟨by omega, by omega, by simpa using hfits⟩]
    · have hzero : termCount s e j = 0 := by rw [termCount, if_neg h]
      simp [h, terms, hzero]

/-! ## 4. Widths -/

theorem natAbs_term {x : Int} (hx : x ∈ terms s e j) : x.natAbs ≤ max j.natAbs e.natAbs := by
  obtain ⟨k, hk, rfl⟩ := List.mem_map.mp hx
  have hk0 : (0 : Int) ≤ k := Int.natCast_nonneg k
  rcases (lt_termCount k).mp (List.mem_range.mp hk) with ⟨hs, hle⟩ | ⟨hs, hle⟩
  · have hmul := Int.mul_nonneg hk0 hs.le
    omega
  · have hmul := Int.mul_nonpos_of_nonneg_of_nonpos hk0 hs.le
    omega

theorem length_numeral (j : Int) :
    (numeral j).length = (digits j).length + if j < 0 then 1 else 0 := by
  rw [numeral, sign, List.length_append, Nat.add_comm]
  split <;> rfl

theorem length_digits {x : Int} (hx : x ∈ allTerms start step stop) :
    (digits x).length ≤ maxWidth start stop := by
  have hpos : 0 < maxWidth start stop := Nat.length_toDigits_pos
  have hmax := (Nat.length_toDigits_le_iff (by decide) hpos).mp (Nat.le_refl _)
  apply (Nat.length_toDigits_le_iff (by decide) hpos).mpr
  exact Nat.lt_of_le_of_lt (natAbs_term hx) hmax

theorem padded_eq_iff {w width : Nat} (h : (numeral j).length ≤ width) :
    padded w j = signPadded width j ↔
      width = max w (numeral j).length ∧ (j < 0 → w ≤ (numeral j).length) := by
  have hlength : (padded w j).length = w - (numeral j).length + (numeral j).length ∧
      (signPadded width j).length = width - (numeral j).length + (numeral j).length := by
    simp only [padded, signPadded, numeral, List.length_append, List.length_replicate]
    exact ⟨trivial, by omega⟩
  constructor
  · intro heq
    have hsame := congrArg List.length heq
    refine ⟨by omega, fun hneg => ?_⟩
    by_contra hlt
    obtain ⟨n, hn⟩ : ∃ n, w - (numeral j).length = n + 1 := Nat.exists_eq_add_one.mpr (by omega)
    simp [padded, signPadded, hn, sign, hneg, List.replicate_succ] at heq
  · rintro ⟨heq, hneg⟩
    by_cases hj : j < 0
    · have hzero : w - (numeral j).length = 0 ∧ width - (numeral j).length = 0 := by
        have := hneg hj
        omega
      rw [padded, signPadded, hzero.1, hzero.2]
      rfl
    · have hsame : width - (numeral j).length = w - (numeral j).length := by omega
      rw [padded, signPadded, hsame]
      simp [numeral, sign, hj]

/-- There is a width exactly when the signs leave one. -/
theorem even_iff : Even start step stop ↔
    ∃ width, (∀ j ∈ allTerms start step stop, (numeral j).length ≤ width) ∧
      ∀ j ∈ allTerms start step stop,
        padded (maxWidth start stop) j = signPadded width j := by
  have hlen : ∀ j ∈ allTerms start step stop, (numeral j).length ≤ maxWidth start stop + 1 ∧
      (0 ≤ j → (numeral j).length ≤ maxWidth start stop) := by
    intro j hj
    have hdigits := length_digits hj
    rw [length_numeral]
    split <;> omega
  constructor
  · rintro (hall | hall)
    · have hle : ∀ j ∈ allTerms start step stop, (numeral j).length ≤ maxWidth start stop :=
        fun j hj => (hall j hj).elim (hlen j hj).2 Nat.le_of_eq
      refine ⟨maxWidth start stop, hle, fun j hj => (padded_eq_iff (hle j hj)).mpr ?_⟩
      have := hle j hj
      have := hall j hj
      omega
    · refine ⟨maxWidth start stop + 1, fun j hj => (hlen j hj).1, fun j hj => ?_⟩
      have := hall j hj
      exact (padded_eq_iff (hlen j hj).1).mpr (by omega)
  · rintro ⟨width, hle, hall⟩
    have heq := fun j hj => (padded_eq_iff (hle j hj)).mp (hall j hj)
    by_cases hw : width = maxWidth start stop
    · left
      intro j hj
      have := heq j hj
      omega
    · right
      intro j hj
      have := heq j hj
      have := hlen j hj
      omega

/-! ## 5. The output -/

theorem fits_toInt (i : Int64) : Fits i.toInt := ⟨Int64.le_toInt i, Int64.toInt_lt i⟩

theorem length_terms (s e j : Int) : (terms s e j).length = termCount s e j := by simp [terms]

theorem isLine_padded (w : Nat) (j : Int) : IsLine (padded w j) ∧ IsLine (signPadded w j) := by
  have hsign : ∀ c ∈ sign j, c = '-' ∨ c.isDigit = true := by
    unfold sign
    split <;> simp
  have hdigits : ∀ c ∈ digits j, c = '-' ∨ c.isDigit = true := fun c hc =>
    .inr (Nat.isDigit_of_mem_toDigits (by decide) (by decide) hc)
  have hline : ∀ {t : List Char}, t ≠ [] → (∀ c ∈ t, c = '-' ∨ c.isDigit = true) → IsLine t :=
    fun hne h => ⟨hne, fun hmem => by simpa using h _ hmem,
      fun hlast => by simpa using h _ (List.mem_of_getLast? hlast)⟩
  constructor <;> apply hline
  · simp [padded, numeral, digits]
  · simp only [padded, numeral, List.forall_mem_append, List.mem_replicate]
    exact ⟨fun c hc => .inr (hc.2 ▸ rfl), hsign, hdigits⟩
  · simp [signPadded, digits]
  · simp only [signPadded, List.forall_mem_append, List.mem_replicate]
    exact ⟨hsign, fun c hc => .inr (hc.2 ▸ rfl), hdigits⟩

theorem printLines_inj {ls ls' : List (List Char)} (h : ∀ l ∈ ls, IsLine l)
    (h' : ∀ l ∈ ls', IsLine l) : printLines ls = printLines ls' ↔ ls = ls' := by
  refine ⟨fun heq => ?_, congrArg printLines⟩
  rw [← nonemptyLines_printLines h, heq, nonemptyLines_printLines h']

theorem intercalate_newline {ls : List (List Char)} (h : ls ≠ []) :
    ['\n'].intercalate ls ++ ['\n'] = printLines ls := by
  induction ls with
  | nil => exact absurd rfl h
  | cons l ls ih =>
    cases ls with
    | nil => simp [List.intercalate, printLines]
    | cons l' ls =>
      have hrest := ih (List.cons_ne_nil _ _)
      simp_all [List.intercalate, printLines]

/-- The terms are printed exactly, and nothing else, when the numbers are plain. -/
theorem terms_printed_iff (equalWidth : Bool) (h : step ≠ 0) :
    Exact equalWidth start step stop ↔ Plain equalWidth start step stop := by
  have hloop := @seqLoop_eq step.toInt stop.toInt start.toInt seqMaxIterations (fits_toInt _)
    (fits_toInt _)
  rw [← length_terms, ← allTerms] at hloop
  by_cases hw : equalWidth = true → Fits |start.toInt| ∧ Fits |stop.toInt|
  swap
  · have hnone : utilSeq equalWidth start step stop = none := by
      simp_all [utilSeq, seqWidth]
    exact iff_of_false (fun hex => by simpa [hnone] using hex.returns) fun hp => hw hp.widths
  obtain ⟨w, hwidth⟩ : ∃ w, w = if equalWidth then maxWidth start stop else 0 := ⟨_, rfl⟩
  have hseq : utilSeq equalWidth start step stop =
      (seqLoop step.toInt stop.toInt seqMaxIterations start.toInt).map fun vals =>
        (['\n'].intercalate (vals.map (padded w)) ++ ['\n'], 0) := by
    cases equalWidth <;> simp_all [utilSeq, seqWidth]
  rw [hloop] at hseq
  by_cases hnil : allTerms start step stop = []
  · have hnewline : utilSeq equalWidth start step stop = some (['\n'], 0) := by
      simp [hseq, hnil, List.intercalate]
    refine iff_of_false (fun hex => ?_) fun hp => hp.some_term hnil
    obtain ⟨width, -, hout⟩ := hex.prints (by simp [hnil])
    simp [hnewline, hnil, printLines] at hout
  by_cases hmany : (allTerms start step stop).length ≤ seqMaxIterations
  swap
  · rw [if_neg fun hc => hmany hc.1] at hseq
    exact iff_of_true ⟨by simp [hseq], fun hle => absurd hle hmany⟩
      ⟨hw, hnil, fun hle => absurd hle hmany, fun _ hle => absurd hle hmany⟩
  by_cases hnext : Fits (start.toInt + (allTerms start step stop).length * step.toInt)
  swap
  · rw [if_pos ⟨hmany, by simpa using hnil, hnext⟩] at hseq
    exact iff_of_false (fun hex => by simpa [hseq] using hex.returns)
      fun hp => hnext (hp.next hmany)
  have hlines := fun width => @printLines_inj ((allTerms start step stop).map (padded w))
    ((allTerms start step stop).map (signPadded width))
    (List.forall_mem_map.mpr fun j _ => (isLine_padded w j).1)
    (List.forall_mem_map.mpr fun j _ => (isLine_padded width j).2)
  rw [if_neg fun hc => hc.2.2 hnext, List.take_of_length_le hmany, Option.map_some,
    intercalate_newline (by simpa using hnil)] at hseq
  have hprints : Exact equalWidth start step stop ↔ ∃ width,
      (if equalWidth then ∀ j ∈ allTerms start step stop, (numeral j).length ≤ width
        else width = 0) ∧ ∀ j ∈ allTerms start step stop, padded w j = signPadded width j := by
    constructor
    · intro hex
      obtain ⟨width, hle, hout⟩ := hex.prints hmany
      simp only [hseq, Option.some.injEq, Prod.mk.injEq, and_true, hlines] at hout
      exact ⟨width, hle, List.map_inj_left.mp hout⟩
    · rintro ⟨width, hle, hall⟩
      refine ⟨by simp [hseq], fun _ => ⟨width, hle, ?_⟩⟩
      rw [hseq, List.map_congr_left hall]
  rw [hprints]
  cases equalWidth with
  | false =>
    refine iff_of_true ⟨0, rfl, fun j _ => ?_⟩
      ⟨fun h => (by cases h), hnil, fun _ => hnext, fun h => (by cases h)⟩
    simp [hwidth, padded, signPadded, numeral]
  | true =>
    rw [if_pos rfl] at hwidth
    rw [hwidth]
    simp only [if_true, ← even_iff]
    exact ⟨fun he => ⟨hw, hnil, fun _ => hnext, fun _ _ => he⟩, fun hp => hp.even rfl hmany⟩

theorem terms_printed_to_five : Exact true 1 2 5 ↔ Plain true 1 2 5 := terms_printed_iff true (by decide)

theorem no_terms_print_a_line : ¬∀ (equalWidth : Bool) (start step stop : Int64), step ≠ 0 →
    Exact equalWidth start step stop := by
  intro h
  obtain ⟨width, -, hout⟩ := (h false 1 1 0 (by decide)).prints (by decide)
  have hnil : allTerms 1 1 0 = [] := by decide
  have hnewline : utilSeq false 1 1 0 = some (['\n'], 0) := by decide
  rw [hnil, hnewline] at hout
  cases hout

end Wasmsh.SeqTerms

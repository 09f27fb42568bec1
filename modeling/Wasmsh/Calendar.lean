import Mathlib.Data.List.Lex
import Mathlib.Tactic.IntervalCases

/-!
# Calendar dates

`UtcDateTime` of `wasmsh-utils/src/clock.rs` and its weekday, against the count of the days of
the proleptic Gregorian calendar.
-/

namespace Wasmsh.Clock

/-! ## 1. The conversions -/

/-- The public fields of `UtcDateTime`. -/
structure Fields where
  year : Nat
  month : Nat
  day : Nat
  hour : Nat
  minute : Nat
  second : Nat
  millisecond : Nat
  deriving DecidableEq

structure UtcDateTime where
  fields : Fields
  epochMs : Int
  deriving DecidableEq

inductive ClockError where
  | invalidUnixMillis (value : Int)
  | invalidDate (value : List Char)
  deriving DecidableEq

/-- `div_euclid` is `/`, and so is the division of a number that is not negative. -/
structure Civil where
  era : Int
  doe : Int
  yoe : Int
  doy : Int
  monthPrime : Int

def civilFromDays (days : Int) : Civil :=
  let z := days + 719468
  let era := z / 146097
  let doe := z - era * 146097
  let yoe := (doe - doe / 1460 + doe / 36524 - doe / 146096) / 365
  let doy := doe - (365 * yoe + yoe / 4 - yoe / 100)
  ⟨era, doe, yoe, doy, (5 * doy + 2) / 153⟩

variable (c : Civil)

def Civil.day : Int := c.doy - (153 * c.monthPrime + 2) / 5 + 1

def Civil.month : Int := c.monthPrime + if c.monthPrime < 10 then 3 else -9

def Civil.year : Int := c.yoe + c.era * 400 + if c.month ≤ 2 then 1 else 0

def fromUnixMs (epochMs : Int) : Except ClockError UtcDateTime :=
  let totalSeconds := epochMs / 1000
  let seconds := totalSeconds % 86400
  let c := civilFromDays (totalSeconds / 86400)
  if 0 ≤ c.year ∧ c.year ≤ 9999 then
    .ok
      { fields :=
          { year := (c.year % 2 ^ 16).toNat
            month := (c.month % 2 ^ 8).toNat
            day := (c.day % 2 ^ 8).toNat
            hour := (seconds / 3600).toNat
            minute := (seconds % 3600 / 60).toNat
            second := (seconds % 60).toNat
            millisecond := (epochMs % 1000).toNat }
        epochMs := epochMs }
  else .error (.invalidUnixMillis epochMs)

def isLeapYear (year : Int) : Prop := year % 4 = 0 ∧ (year % 100 ≠ 0 ∨ year % 400 = 0)

instance (year : Int) : Decidable (isLeapYear year) := inferInstanceAs (Decidable (_ ∧ _))

def daysInMonth (year : Int) (month : Nat) : Nat :=
  if month = 2 then if isLeapYear year then 29 else 28
  else if month = 4 ∨ month = 6 ∨ month = 9 ∨ month = 11 then 30
  else 31

def daysFromCivil (year : Int) (month day : Nat) : Int :=
  let year := year - if month ≤ 2 then 1 else 0
  let era := if 0 ≤ year then year / 400 else (year - 399).tdiv 400
  let yearOfEra := year - era * 400
  let monthPrime : Int := month + if 2 < month then -3 else 9
  let dayOfYear := (153 * monthPrime + 2) / 5 + day - 1
  era * 146097 + (yearOfEra * 365 + yearOfEra / 4 - yearOfEra / 100 + dayOfYear) - 719468

def Fits (i : Int) : Prop := -2 ^ 63 ≤ i ∧ i < 2 ^ 63

instance (i : Int) : Decidable (Fits i) := inferInstanceAs (Decidable (_ ∧ _))

def checked (i : Int) : Except ClockError Int :=
  if Fits i then .ok i else .error (.invalidDate "timestamp overflow".toList)

/-- What `from_calendar` lets through. -/
structure Fields.Valid (f : Fields) : Prop where
  year : f.year ≤ 9999
  month : 1 ≤ f.month ∧ f.month ≤ 12
  day : 1 ≤ f.day ∧ f.day ≤ daysInMonth f.year f.month
  time : f.hour ≤ 23 ∧ f.minute ≤ 59 ∧ f.second ≤ 59 ∧ f.millisecond ≤ 999

instance (f : Fields) : Decidable f.Valid :=
  decidable_of_iff (f.year ≤ 9999 ∧ (1 ≤ f.month ∧ f.month ≤ 12) ∧
      (1 ≤ f.day ∧ f.day ≤ daysInMonth f.year f.month) ∧
      (f.hour ≤ 23 ∧ f.minute ≤ 59 ∧ f.second ≤ 59 ∧ f.millisecond ≤ 999))
    ⟨fun h => ⟨h.1, h.2.1, h.2.2.1, h.2.2.2⟩, fun h => ⟨h.1, h.2, h.3, h.4⟩⟩

def padded (width n : Nat) : List Char := (Nat.repr n).toList.leftpad width '0'

def Fields.text (f : Fields) : List Char :=
  padded 4 f.year ++ '-' :: padded 2 f.month ++ '-' :: padded 2 f.day ++
    ' ' :: padded 2 f.hour ++ ':' :: padded 2 f.minute ++ ':' :: padded 2 f.second

def fromCalendar (f : Fields) : Except ClockError UtcDateTime := do
  if f.Valid then
    let days ← checked (daysFromCivil f.year f.month f.day * 86400)
    let hours ← checked (days + f.hour * 3600)
    let minutes ← checked (hours + f.minute * 60)
    let seconds ← checked (minutes + f.second)
    let millis ← checked (seconds * 1000)
    fromUnixMs (← checked (millis + f.millisecond))
  else .error (.invalidDate f.text)

def weekdaySundayZero (f : Fields) : Nat :=
  let y : Int := f.year - if f.month < 3 then 1 else 0
  let m : Int := f.month + if f.month < 3 then 12 else 0
  let dow := (f.day + 13 * (m + 1) / 5 + y + y.tdiv 4 - y.tdiv 100 + y.tdiv 400) % 7
  ((dow + 6) % 7).toNat

/-! ## 2. The calendar -/

/-- The days of the years from 0 up to a year. -/
def daysBeforeYear (y : Int) : Int := 365 * y + (y + 3) / 4 - (y + 99) / 100 + (y + 399) / 400

/-- The days of the first months of a year. -/
def daysThrough (y : Int) : Nat → Int
  | 0 => 0
  | m + 1 => daysThrough y m + daysInMonth y (m + 1)

/-- The days from 1970-01-01 to a date. -/
def dayNumber (y : Int) (m d : Nat) : Int :=
  daysBeforeYear y - 719528 + daysThrough y (m - 1) + d - 1

def Fields.millis (f : Fields) : Int :=
  (dayNumber f.year f.month f.day * 86400 + f.hour * 3600 + f.minute * 60 + f.second) * 1000 +
    f.millisecond

def Fields.list (f : Fields) : List Nat :=
  [f.year, f.month, f.day, f.hour, f.minute, f.second, f.millisecond]

/-- The first millisecond of a year. -/
def yearStart (y : Int) : Int := (daysBeforeYear y - 719528) * 86400000

/-- The values that `from_unix_ms` computes with. -/
def intermediates (t : Int) : List Int :=
  let c := civilFromDays (t / 1000 / 86400)
  [t / 1000, t / 1000 / 86400, t / 1000 / 86400 + 719468, c.era, c.era * 146097, c.doe,
    c.doe - c.doe / 1460, c.doe - c.doe / 1460 + c.doe / 36524,
    c.doe - c.doe / 1460 + c.doe / 36524 - c.doe / 146096, c.yoe, c.era * 400,
    c.yoe + c.era * 400, 365 * c.yoe, 365 * c.yoe + c.yoe / 4,
    365 * c.yoe + c.yoe / 4 - c.yoe / 100, c.doy, 5 * c.doy, 5 * c.doy + 2, 153 * c.monthPrime,
    153 * c.monthPrime + 2, c.doy - (153 * c.monthPrime + 2) / 5, c.day, c.month, c.year]

/-- The conversions of a millisecond value and of any fields, in both directions, their order,
    and the weekday of the value. -/
structure Exact (t : Int) : Prop where
  fits : ∀ i ∈ intermediates t, Fits i
  converts : if yearStart 0 ≤ t ∧ t < yearStart 10000 then
      ∃ a, fromUnixMs t = .ok a ∧ a.fields.Valid ∧ a.epochMs = t ∧ a.fields.millis = t ∧
        fromCalendar a.fields = .ok a
    else fromUnixMs t = .error (.invalidUnixMillis t)
  calendar : ∀ f : Fields, if f.Valid then
      ∃ a, fromCalendar f = .ok a ∧ a.fields = f ∧ fromUnixMs a.epochMs = .ok a
    else fromCalendar f = .error (.invalidDate f.text)
  order : ∀ a t' a', fromUnixMs t = .ok a → fromUnixMs t' = .ok a' →
    (t < t' ↔ a.fields.list < a'.fields.list)
  weekday : ∀ a, fromUnixMs t = .ok a →
    (weekdaySundayZero a.fields : Int) = (4 + t / 86400000) % 7

/-! ## 3. Years and months -/

theorem daysBeforeYear_succ (y : Int) :
    daysBeforeYear (y + 1) = daysBeforeYear y + if isLeapYear y then 366 else 365 := by
  by_cases h : isLeapYear y
  · rw [if_pos h]
    unfold daysBeforeYear isLeapYear at *
    omega
  · rw [if_neg h]
    unfold daysBeforeYear isLeapYear at *
    omega

theorem daysBeforeYear_mono {y y' : Int} (h : y ≤ y') : daysBeforeYear y ≤ daysBeforeYear y' := by
  unfold daysBeforeYear
  omega

theorem daysThrough_mono (y : Int) {m m' : Nat} (h : m ≤ m') :
    daysThrough y m ≤ daysThrough y m' := by
  induction h with
  | refl => exact Int.le_refl _
  | step _ ih =>
    rw [daysThrough]
    omega

theorem daysThrough_year (y : Int) :
    daysThrough y 12 = if isLeapYear y then 366 else 365 := by
  simp only [daysThrough, daysInMonth]
  by_cases h : isLeapYear y <;> simp [h]

/-- A day number, of a date in a year that begins with March. -/
def marchDay (y monthPrime d : Int) : Int :=
  365 * y + y / 4 - y / 100 + y / 400 + (153 * monthPrime + 2) / 5 + d - 1 - 719468

theorem dayNumber_eq (y : Int) {m : Nat} (d : Nat) (h1 : 1 ≤ m) (h12 : m ≤ 12) :
    dayNumber y m d =
      marchDay (y - if m ≤ 2 then 1 else 0) (m + if 2 < m then -3 else 9) d := by
  have hyear : ∀ y : Int, 365 * y + y / 4 - y / 100 + y / 400 = daysBeforeYear (y + 1) - 366 := by
    intro y
    unfold daysBeforeYear
    omega
  have hnext := daysBeforeYear_succ y
  unfold dayNumber marchDay
  rw [hyear]
  by_cases h : isLeapYear y
  · interval_cases m <;> simp [daysThrough, daysInMonth, h] at hnext ⊢ <;> omega
  · interval_cases m <;> simp [daysThrough, daysInMonth, h] at hnext ⊢ <;> omega

theorem daysFromCivil_eq {y m : Nat} (d : Nat) (h1 : 1 ≤ m) (h12 : m ≤ 12) :
    daysFromCivil y m d = dayNumber y m d := by
  rw [dayNumber_eq _ d h1 h12]
  unfold daysFromCivil marchDay
  have hera : ∀ z : Int, -1 ≤ z → (if 0 ≤ z then z / 400 else (z - 399).tdiv 400) = z / 400 := by
    intro z hz
    split
    · rfl
    · obtain rfl : z = -1 := by omega
      rfl
  have hz : -1 ≤ (y : Int) - if m ≤ 2 then 1 else 0 := by split <;> omega
  simp only [hera _ hz]
  generalize (y : Int) - (if m ≤ 2 then 1 else 0) = z
  omega

/-! ## 4. A date from its days -/

/-- A day of an era: its century, its leap cycle, its year and its day of that. -/
structure EraDay (doe p q r s : Int) : Prop where
  sum : doe = 36524 * p + 1461 * q + 365 * r + s
  century : 0 ≤ p ∧ p ≤ 3
  cycle : 0 ≤ q ∧ q ≤ 24
  year : 0 ≤ r ∧ r ≤ 3
  day : 0 ≤ s ∧ (s ≤ 364 ∨ s = 365 ∧ r = 3 ∧ (q ≤ 23 ∨ p = 3))

theorem exists_eraDay {doe : Int} (h : 0 ≤ doe ∧ doe < 146097) : ∃ p q r s, EraDay doe p q r s := by
  refine ⟨min (doe / 36524) 3, (doe - 36524 * min (doe / 36524) 3) / 1461,
    min ((doe - 36524 * min (doe / 36524) 3) % 1461 / 365) 3, _, (by rw [add_sub_cancel]), ?_, ?_,
    ?_, ?_⟩ <;> omega

theorem yoe_of_eraDay {doe p q r s : Int} (h : EraDay doe p q r s) :
    (doe - doe / 1460 + doe / 36524 - doe / 146096) / 365 = 100 * p + 4 * q + r := by
  obtain ⟨hsum, hp, hq, hr, hs, hlast⟩ := h
  have hcentury : doe / 36524 - doe / 146096 = p := by
    by_cases h : doe = 146096
    · omega
    · have hzero : doe / 146096 = 0 := by omega
      omega
  have hcycle : doe / 1460 = 25 * p + q + (24 * p + q + 365 * r + s) / 1460 := by omega
  omega

/-- How the days are taken apart. -/
theorem civilFromDays_eq (days : Int) : ∃ doe p q r s, EraDay doe p q r s ∧
    days = 146097 * ((days + 719468) / 146097) + doe - 719468 ∧ civilFromDays days =
      ⟨(days + 719468) / 146097, doe, 100 * p + 4 * q + r, s, (5 * s + 2) / 153⟩ := by
  obtain ⟨doe, hdoe⟩ : ∃ doe, doe = days + 719468 - (days + 719468) / 146097 * 146097 := ⟨_, rfl⟩
  obtain ⟨p, q, r, s, h⟩ := @exists_eraDay doe (by omega)
  refine ⟨doe, p, q, r, s, h, by omega, ?_⟩
  have hyoe := yoe_of_eraDay h
  obtain ⟨hsum, hp, hq, hr, -⟩ := h
  have hyears : (100 * p + 4 * q + r) / 4 = 25 * p + q ∧ (100 * p + 4 * q + r) / 100 = p := by
    omega
  have hdoy : doe - (365 * (100 * p + 4 * q + r) + (25 * p + q) - p) = s := by omega
  simp only [civilFromDays, ← hdoe, hyoe, hyears, hdoy]

/-- The lengths of the months are the gaps of the March formula, but for the last one. -/
theorem daysInMonth_eq (y : Int) {m : Nat} (h1 : 1 ≤ m) (h12 : m ≤ 12) (hne : m ≠ 2) :
    (daysInMonth y m : Int) = (153 * (m + (if 2 < m then -3 else 9) + 1) + 2) / 5 -
      (153 * (m + if 2 < m then -3 else 9) + 2) / 5 := by
  interval_cases m <;> simp [daysInMonth] at hne ⊢

theorem day_in_month {s mp y : Int} {m d : Nat} (h1 : 1 ≤ m) (h12 : m ≤ 12)
    (hs : 0 ≤ s ∧ s ≤ 365) (hmp : mp = (5 * s + 2) / 153)
    (hshift : mp = m + if 2 < m then -3 else 9) (hd : d = s - (153 * mp + 2) / 5 + 1)
    (hleap : s = 365 → isLeapYear y) : 1 ≤ d ∧ d ≤ daysInMonth y m := by
  refine ⟨by omega, ?_⟩
  by_cases hfeb : m = 2
  · subst hfeb
    obtain rfl : mp = 11 := hshift
    rw [daysInMonth, if_pos rfl]
    by_cases hlast : s = 365
    · rw [if_pos (hleap hlast)]
      omega
    · split <;> omega
  · have hlen := daysInMonth_eq y h1 h12 hfeb
    rw [← hshift] at hlen
    omega

/-- The last day of a year that begins with March is a leap day. -/
theorem EraDay.leap {doe p q r s : Int} (h : EraDay doe p q r s) (hs : s = 365) (era : Int) :
    isLeapYear (100 * p + 4 * q + r + era * 400 + 1) := by
  obtain ⟨-, hp, hq, -, -, hlast⟩ := h
  have hr : r = 3 ∧ (q ≤ 23 ∨ p = 3) := by omega
  unfold isLeapYear
  omega

theorem EraDay.march {doe p q r s mp era y : Int} (h : EraDay doe p q r s)
    (hy : y = 100 * p + 4 * q + r + era * 400) :
    marchDay y mp (s - (153 * mp + 2) / 5 + 1) = 146097 * era + doe - 719468 := by
  obtain ⟨hsum, hp, hq, hr, -⟩ := h
  have hquots : y / 4 = 25 * p + q + 100 * era ∧ y / 100 = p + 4 * era ∧ y / 400 = era := by
    omega
  rw [marchDay, hquots.1, hquots.2.1, hquots.2.2]
  omega

/-- The fields are those of a date of the calendar, and it is the one of these days. -/
theorem civil_spec (days : Int) {c : Civil} (h : c = civilFromDays days) :
    ∃ m d : Nat, c.month = m ∧ c.day = d ∧ (1 ≤ m ∧ m ≤ 12) ∧
      (1 ≤ d ∧ d ≤ daysInMonth c.year m) ∧ dayNumber c.year m d = days := by
  obtain ⟨doe, p, q, r, s, hera, hdays, hc⟩ := civilFromDays_eq days
  generalize (days + 719468) / 146097 = era at hdays hc
  obtain ⟨mp, hmp⟩ : ∃ mp, mp = (5 * s + 2) / 153 := ⟨_, rfl⟩
  have hs : 0 ≤ s ∧ s ≤ 365 := by
    have := hera.day
    omega
  have hmonth : c.month = mp + if mp < 10 then 3 else -9 := by rw [h, hc, Civil.month, hmp]
  have hday : c.day = s - (153 * mp + 2) / 5 + 1 := by rw [h, hc, Civil.day, hmp]
  obtain ⟨y, hy⟩ : ∃ y, y = 100 * p + 4 * q + r + era * 400 := ⟨_, rfl⟩
  have hyear : c.year = y + if c.month ≤ 2 then 1 else 0 := by rw [Civil.year, h, hc, hy]
  obtain ⟨m, hm⟩ : ∃ m : Nat, c.month = m := ⟨c.month.toNat, by omega⟩
  obtain ⟨d, hd⟩ : ∃ d : Nat, c.day = d := ⟨c.day.toNat, by omega⟩
  have hrange : 1 ≤ m ∧ m ≤ 12 := by omega
  have hshift : mp = m + if 2 < m then -3 else 9 := by omega
  refine ⟨m, d, hm, hd, hrange, ?_, ?_⟩
  · apply day_in_month hrange.1 hrange.2 hs hmp hshift (hd ▸ hday)
    intro hlast
    have hleap := hera.leap hlast era
    rw [hyear, if_pos (by omega), hy]
    exact hleap
  · have hmarch : c.year - (if m ≤ 2 then 1 else 0) = y := by omega
    rw [dayNumber_eq _ _ hrange.1 hrange.2, hmarch, ← hshift, ← hd, hday, hera.march hy, hdays]

/-! ## 5. Order -/

section Order

variable {f g : Fields}

theorem dayNumber_bounds {y : Int} {m d : Nat} (h1 : 1 ≤ m) (h12 : m ≤ 12)
    (hd : 1 ≤ d ∧ d ≤ daysInMonth y m) : daysBeforeYear y ≤ dayNumber y m d + 719528 ∧
      dayNumber y m d + 719528 < daysBeforeYear y + daysThrough y m ∧
      daysBeforeYear y + daysThrough y m ≤ daysBeforeYear (y + 1) := by
  obtain ⟨k, rfl⟩ : ∃ k, m = k + 1 := Nat.exists_eq_add_one.mpr h1
  have hzero : 0 ≤ daysThrough y k := daysThrough_mono y (Nat.zero_le k)
  have hyear := daysThrough_mono y h12
  rw [daysThrough_year] at hyear
  rw [daysBeforeYear_succ, daysThrough, dayNumber, Nat.add_sub_cancel]
  rw [daysThrough] at hyear
  omega

/-- An earlier date has a smaller number. -/
theorem dayNumber_lt (hf : f.Valid) (hg : g.Valid) (h : f.year < g.year ∨
      f.year = g.year ∧ (f.month < g.month ∨ f.month = g.month ∧ f.day < g.day)) :
    dayNumber f.year f.month f.day < dayNumber g.year g.month g.day := by
  obtain ⟨-, hlt, hle⟩ := dayNumber_bounds hf.month.1 hf.month.2 hf.day
  rcases h with h | ⟨hyear, h | ⟨hmonth, h⟩⟩
  · have hmono := daysBeforeYear_mono (show (f.year : Int) + 1 ≤ g.year by omega)
    have := (dayNumber_bounds hg.month.1 hg.month.2 hg.day).1
    omega
  · have hmono := daysThrough_mono f.year (show f.month ≤ g.month - 1 by omega)
    have := hg.day
    rw [← hyear]
    unfold dayNumber at hlt ⊢
    omega
  · rw [dayNumber, dayNumber, hyear, hmonth]
    omega

theorem millis_lt (hf : f.Valid) (hg : g.Valid) (h : f.list < g.list) : f.millis < g.millis := by
  have hlt := @dayNumber_lt f g hf hg
  have htimes := And.intro hf.time hg.time
  simp only [Fields.list, List.cons_lt_cons_iff, List.not_lt_nil, and_false, or_false] at h
  unfold Fields.millis
  by_cases hdate : f.year = g.year ∧ f.month = g.month ∧ f.day = g.day
  · rw [hdate.1, hdate.2.1, hdate.2.2]
    omega
  · have := hlt (by omega)
    omega

theorem list_inj (h : f.list = g.list) : f = g := by
  obtain ⟨⟩ := f
  obtain ⟨⟩ := g
  simpa [Fields.list] using h

theorem eq_of_millis (hf : f.Valid) (hg : g.Valid) (h : f.millis = g.millis) : f = g := by
  have hnot := mt (millis_lt hf hg) (by omega)
  have hnot' := mt (millis_lt hg hf) (by omega)
  exact list_inj (le_antisymm (not_lt.mp hnot') (not_lt.mp hnot))

theorem millis_lt_iff (hf : f.Valid) (hg : g.Valid) :
    f.millis < g.millis ↔ f.list < g.list := by
  refine ⟨fun h => ?_, millis_lt hf hg⟩
  rcases lt_trichotomy f.list g.list with hlt | heq | hgt
  · exact hlt
  · exact absurd h (list_inj heq ▸ lt_irrefl _)
  · exact absurd h (millis_lt hg hf hgt).asymm

end Order

/-! ## 6. The conversions are exact -/

variable {t : Int} {f : Fields}

theorem fromUnixMs_spec (t : Int) :
    if yearStart 0 ≤ t ∧ t < yearStart 10000 then
      ∃ a, fromUnixMs t = .ok a ∧ a.fields.Valid ∧ a.epochMs = t ∧ a.fields.millis = t
    else fromUnixMs t = .error (.invalidUnixMillis t) := by
  obtain ⟨c, hc⟩ : ∃ c, c = civilFromDays (t / 1000 / 86400) := ⟨_, rfl⟩
  obtain ⟨m, d, hm, hd, hmonth, hday, hnumber⟩ := civil_spec _ hc
  have hbounds := dayNumber_bounds hmonth.1 hmonth.2 hday
  rw [hnumber] at hbounds
  have hrange : (0 ≤ c.year ∧ c.year ≤ 9999) ↔ yearStart 0 ≤ t ∧ t < yearStart 10000 := by
    have h0 : c.year + 1 ≤ 0 → daysBeforeYear (c.year + 1) ≤ 0 := daysBeforeYear_mono
    have h0' : 0 ≤ c.year → 0 ≤ daysBeforeYear c.year := daysBeforeYear_mono
    have h1 : c.year + 1 ≤ 10000 → daysBeforeYear (c.year + 1) ≤ 3652425 := daysBeforeYear_mono
    have h1' : 10000 ≤ c.year → 3652425 ≤ daysBeforeYear c.year := daysBeforeYear_mono
    have hstart : yearStart 0 = -719528 * 86400000 ∧ yearStart 10000 = 2932897 * 86400000 := by
      decide
    omega
  have hsmall : d ≤ 31 := by
    have : daysInMonth c.year m ≤ 31 := by
      unfold daysInMonth
      split_ifs <;> omega
    omega
  unfold fromUnixMs
  simp only [← hc, hrange]
  split
  case isFalse => rfl
  case isTrue hyear =>
    obtain ⟨y, hy⟩ : ∃ y : Nat, c.year = y := ⟨c.year.toNat, by omega⟩
    have hcasts : (c.year % 2 ^ 16).toNat = y ∧ (c.month % 2 ^ 8).toNat = m ∧
        (c.day % 2 ^ 8).toNat = d := by omega
    refine ⟨_, rfl, ?_, rfl, ?_⟩
    · simp only [hcasts]
      rw [hy] at hday
      exact ⟨by simp only; omega, hmonth, hday, by simp only; omega⟩
    · simp only [hcasts, Fields.millis]
      rw [← hy, hnumber]
      omega

theorem fromCalendar_valid (h : f.Valid) : ∃ a, fromCalendar f = .ok a ∧ a.fields = f ∧
    fromUnixMs f.millis = .ok a ∧ a.epochMs = f.millis := by
  have hbounds := dayNumber_bounds h.month.1 h.month.2 h.day
  have hfirst : daysBeforeYear 0 ≤ daysBeforeYear f.year := daysBeforeYear_mono (by omega)
  have hlast : daysBeforeYear (f.year + 1) ≤ daysBeforeYear 10000 := by
    have := h.year
    exact daysBeforeYear_mono (by omega)
  have hends : daysBeforeYear 0 = 0 ∧ daysBeforeYear 10000 = 3652425 := by decide
  have htime := h.time
  have hspec := fromUnixMs_spec f.millis
  rw [if_pos (by unfold Fields.millis yearStart; omega)] at hspec
  obtain ⟨a, ha, hvalid, hepoch, hmillis⟩ := hspec
  have hchecked : ∀ {i : Int}, Fits i → checked i = .ok i := fun hi => if_pos hi
  refine ⟨a, ?_, eq_of_millis hvalid h hmillis, ha, hepoch⟩
  rw [fromCalendar, if_pos h, daysFromCivil_eq _ h.month.1 h.month.2]
  unfold Fields.millis at ha
  simp (disch := unfold Fits; omega) only [hchecked, bind, Except.bind]
  exact ha

/-- The two formulas for the months differ by whole weeks. -/
theorem month_weeks {m : Nat} (h1 : 1 ≤ m) (h12 : m ≤ 12) :
    13 * ((m : Int) + (if m < 3 then 12 else 0) + 1) / 5 =
      (153 * (m + if 2 < m then -3 else 9) + 2) / 5 + 10 -
        7 * (4 * (m + if 2 < m then -3 else 9)) := by
  interval_cases m <;> rfl

/-- The weekday goes wrong only before the first of March of year 0. -/
theorem weekday_iff (h : f.Valid) :
    (weekdaySundayZero f : Int) = (4 + dayNumber f.year f.month f.day) % 7 ↔
      -719468 ≤ dayNumber f.year f.month f.day := by
  rw [dayNumber_eq _ _ h.month.1 h.month.2]
  obtain ⟨y, hy⟩ : ∃ y : Int, y = f.year - if f.month < 3 then 1 else 0 := ⟨_, rfl⟩
  have hmarch : y = f.year - if f.month ≤ 2 then 1 else 0 := by omega
  obtain ⟨mp, hmp⟩ : ∃ mp : Int, mp = f.month + if 2 < f.month then -3 else 9 := ⟨_, rfl⟩
  have hday := h.day
  have hmonth := h.month
  simp only [weekdaySundayZero, marchDay, ← hy, ← hmarch, ← hmp, month_weeks hmonth.1 hmonth.2]
  by_cases hneg : y = -1
  · have hquots : (-1 : Int).tdiv 4 = 0 ∧ (-1 : Int).tdiv 100 = 0 ∧ (-1 : Int).tdiv 400 = 0 :=
      ⟨rfl, rfl, rfl⟩
    have hlate : (153 * mp + 2) / 5 + f.day ≤ 366 := by
      have hcases : f.month = 1 ∨ f.month = 2 := by omega
      unfold daysInMonth at hday
      split_ifs at hday <;> omega
    subst hneg
    simp only [hquots]
    omega
  · have hnonneg : 0 ≤ y := by omega
    simp only [Int.tdiv_eq_ediv_of_nonneg hnonneg]
    omega

/-! ## 7. Every value -/

theorem intermediates_fit (h : Fits t) : ∀ i ∈ intermediates t, Fits i := by
  obtain ⟨doe, p, q, r, s, hera, hdays, hc⟩ := civilFromDays_eq (t / 1000 / 86400)
  obtain ⟨hsum, hp, hq, hr, hs⟩ := hera
  obtain ⟨yoe, hyoe⟩ : ∃ yoe, yoe = 100 * p + 4 * q + r := ⟨_, rfl⟩
  obtain ⟨mp, hmp⟩ : ∃ mp, mp = (5 * s + 2) / 153 := ⟨_, rfl⟩
  have hsmall : (0 ≤ yoe ∧ yoe < 400) ∧ (0 ≤ s ∧ s < 366) ∧ (0 ≤ mp ∧ mp ≤ 11) ∧
      0 ≤ doe ∧ doe < 146097 := by omega
  have hdiv : (-10 ^ 16 ≤ t / 1000 ∧ t / 1000 ≤ 10 ^ 16) ∧
      -10 ^ 12 ≤ t / 1000 / 86400 ∧ t / 1000 / 86400 ≤ 10 ^ 12 := by
    unfold Fits at h
    omega
  simp only [intermediates, hc, Civil.day, Civil.month, Civil.year, ← hyoe, ← hmp]
  generalize (t / 1000 / 86400 + 719468) / 146097 = era at *
  generalize t / 1000 / 86400 = days at *
  clear hsum hp hq hr hs hc hyoe hmp h
  simp only [List.forall_mem_cons, Fits]
  refine ⟨?_, ?_, ?_, ?_, ?_, ?_, ?_, ?_, ?_, ?_, ?_, ?_, ?_, ?_, ?_, ?_, ?_, ?_, ?_, ?_, ?_, ?_,
    ?_, ?_, List.forall_mem_nil _⟩ <;> omega

theorem fromUnixMs_ok {a : UtcDateTime} (h : fromUnixMs t = .ok a) :
    a.fields.Valid ∧ a.fields.millis = t := by
  have hspec := fromUnixMs_spec t
  rw [h] at hspec
  split at hspec
  case isTrue =>
    obtain ⟨b, hb, hvalid, -, hmillis⟩ := hspec
    cases hb
    exact ⟨hvalid, hmillis⟩
  case isFalse => cases hspec

theorem exact_of_weekday (hfits : Fits t) (h : ∀ a, fromUnixMs t = .ok a →
    (weekdaySundayZero a.fields : Int) = (4 + t / 86400000) % 7) : Exact t where
  fits := intermediates_fit hfits
  converts := by
    have hspec := fromUnixMs_spec t
    split at hspec
    case isTrue hin =>
      obtain ⟨a, ha, hvalid, hepoch, hmillis⟩ := hspec
      obtain ⟨b, hb, -, hunix, -⟩ := fromCalendar_valid hvalid
      rw [hmillis, ha, Except.ok.injEq] at hunix
      rw [if_pos hin]
      exact ⟨a, ha, hvalid, hepoch, hmillis, hunix ▸ hb⟩
    case isFalse hin => rwa [if_neg hin]
  calendar := by
    intro f
    split
    case isTrue hvalid =>
      obtain ⟨a, ha, hfields, hunix, hepoch⟩ := fromCalendar_valid hvalid
      exact ⟨a, ha, hfields, hepoch ▸ hunix⟩
    case isFalse hvalid => rw [fromCalendar, if_neg hvalid]
  order := by
    intro a t' a' ha ha'
    obtain ⟨hvalid, hmillis⟩ := fromUnixMs_ok ha
    obtain ⟨hvalid', hmillis'⟩ := fromUnixMs_ok ha'
    rw [← millis_lt_iff hvalid hvalid', hmillis, hmillis']
  weekday := h

/-- January and February of year 0 get the weekday of the next day; all else is exact. -/
theorem calendar_exact_iff (t : Int64) : Exact t.toInt ↔
    ¬(yearStart 0 ≤ t.toInt ∧ t.toInt < yearStart 0 + 60 * 86400000) := by
  have hweekday : ∀ {a : UtcDateTime}, fromUnixMs t.toInt = .ok a →
      ((weekdaySundayZero a.fields : Int) = (4 + t.toInt / 86400000) % 7 ↔
        ¬(yearStart 0 ≤ t.toInt ∧ t.toInt < yearStart 0 + 60 * 86400000)) := by
    intro a ha
    obtain ⟨hvalid, hmillis⟩ := fromUnixMs_ok ha
    have hdays : dayNumber a.fields.year a.fields.month a.fields.day = t.toInt / 86400000 := by
      have htime := hvalid.time
      rw [← hmillis, Fields.millis]
      omega
    have hfirst : yearStart 0 = -719528 * 86400000 ∧ yearStart 0 ≤ t.toInt := by
      refine ⟨rfl, ?_⟩
      by_contra hlt
      have hspec := fromUnixMs_spec t.toInt
      rw [if_neg fun hin => hlt hin.1, ha] at hspec
      cases hspec
    rw [← hdays, weekday_iff hvalid, hdays]
    omega
  constructor
  · intro hex hearly
    have hin : yearStart 0 ≤ t.toInt ∧ t.toInt < yearStart 10000 :=
      ⟨hearly.1, hearly.2.trans (by decide)⟩
    have hconverts := hex.converts
    rw [if_pos hin] at hconverts
    obtain ⟨a, ha, -⟩ := hconverts
    exact (hweekday ha).mp (hex.weekday a ha) hearly
  · intro hearly
    exact exact_of_weekday ⟨Int64.le_toInt t, Int64.toInt_lt t⟩ fun a ha => (hweekday ha).mpr hearly

theorem first_day_is_saturday : ¬∀ t : Int64, Exact t.toInt := by
  intro h
  have hweekday := (h (-62167219200000)).weekday
  have hfirst : fromUnixMs (-62167219200000 : Int64).toInt =
      .ok ⟨⟨0, 1, 1, 0, 0, 0, 0⟩, -62167219200000⟩ := by decide
  exact absurd (hweekday _ hfirst) (by decide)

end Wasmsh.Clock

import Mathlib
import QuackMail.Ical.Instants

/-! # Days and dates

`CivilFromDays` and `DaysFromCivil` invert each other, and the next day has the next date, but not
for the last 719468 days of 64 bits: taking a day to the start of its era overflows there.
-/

namespace QuackMail

/-- `DaysFromCivil` of `tz.cpp`: the text of `ical.cpp`. -/
def Tz.daysFromCivil64 : Int → Int → Int → Option Int := Ical.daysFromCivil64

/-- `CivilFromDays` of `tz.cpp`: the text of `ical.cpp`. -/
def Tz.civilFromDays64 : Int → Option (Int × Int × Int) := Ical.civilFromDays64

end QuackMail

namespace QuackMail.Ical

open Calendar Tz

/-- A value as an `unsigned`. -/
def u32 (x : Int) : Int := x % 0x100000000

/-- `DaysFromCivil` of `rfc5322.cpp`: the month and the day are unsigned. -/
def daysFromCivilU (y m d : Int) : Int :=
  let y := if m ≤ 2 then y - 1 else y
  let era := (if 0 ≤ y then y else y - 399).tdiv 400
  let yoe := u32 (y - era * 400)
  let doy := u32 (u32 (153 * u32 (m + if m > 2 then -3 else 9) + 2) / 5 + d - 1)
  let doe := u32 (yoe * 365 + yoe / 4 - yoe / 100 + doy)
  era * 146097 + doe - 719468

/-- A date of the proleptic Gregorian calendar. -/
def ValidDate (r : Int × Int × Int) : Prop :=
  (1 ≤ r.2.1 ∧ r.2.1 ≤ 12) ∧ 1 ≤ r.2.2 ∧ r.2.2 ≤ daysInMonth r.1 r.2.1

/-- The date after a date. -/
def nextDate (r : Int × Int × Int) : Int × Int × Int :=
  if r.2.2 < daysInMonth r.1 r.2.1 then (r.1, r.2.1, r.2.2 + 1)
  else if r.2.1 < 12 then (r.1, r.2.1 + 1, 1)
  else (r.1 + 1, 1, 1)

/-- The order of dates. -/
def DateLe (r s : Int × Int × Int) : Prop :=
  r.1 < s.1 ∨ r.1 = s.1 ∧ (r.2.1 < s.2.1 ∨ r.2.1 = s.2.1 ∧ r.2.2 ≤ s.2.2)

/-! ## Years -/

theorem leapYear_iff (y : Int) : leapYear y = true ↔ (y % 4 = 0 ∧ y % 100 ≠ 0) ∨ y % 400 = 0 := by
  have hmod : ∀ n : Int, y.tmod n = 0 ↔ y % n = 0 := fun n =>
    Int.dvd_iff_tmod_eq_zero.symm.trans Int.dvd_iff_emod_eq_zero
  simp [leapYear, hmod]

/-- The leap years up to `y`. -/
def leapDays (y : Int) : Int := y / 4 - y / 100 + y / 400

theorem leapDays_step (y : Int) : leapDays y = leapDays (y - 1) + if leapYear y then 1 else 0 := by
  have hfour : y / 4 = (y - 1) / 4 + if y % 4 = 0 then 1 else 0 := by split <;> omega
  have hcent : y / 100 = (y - 1) / 100 + if y % 100 = 0 then 1 else 0 := by split <;> omega
  have hera : y / 400 = (y - 1) / 400 + if y % 400 = 0 then 1 else 0 := by split <;> omega
  rw [leapDays, leapDays, hfour, hcent, hera]
  simp only [leapYear_iff]
  split <;> split <;> split <;> split <;> omega

variable {m d : Int}

/-- The arithmetic by eras, for a year that starts in March. -/
theorem daysFromCivil_march (y : Int) (d : Int) (hm : 1 ≤ m ∧ m ≤ 12) :
    daysFromCivil y m d = 365 * (y - if m ≤ 2 then 1 else 0) +
      leapDays (y - if m ≤ 2 then 1 else 0) + (153 * (m + (if m > 2 then -3 else 9)) + 2) / 5 +
      d - 719469 := by
  obtain ⟨y', yoe, mp, hy, hyoe, -, rfl, hdays⟩ := daysFromCivil_values y d hm
  have hyear : y - (if m ≤ 2 then 1 else 0) = y' := by split at hy <;> omega
  have hfour : yoe / 4 = y' / 4 - y' / 400 * 100 := by omega
  have hcent : yoe / 100 = y' / 100 - y' / 400 * 4 := by omega
  rw [hdays, hfour, hcent, hyear, leapDays]
  omega

/-! ## Without overflow -/

/-- The first day of a month, where the months are counted from the year 0 on. -/
def firstOfMonth (k : Int) : Int := daysFromCivil (k / 12) (k % 12 + 1) 1

theorem daysInMonth_range (y : Int) (hm : 1 ≤ m ∧ m ≤ 12) :
    28 ≤ daysInMonth y m ∧ daysInMonth y m ≤ 31 := by
  obtain ⟨hlow, hhigh⟩ := hm
  cases hleap : leapYear y <;> interval_cases m <;> simp [daysInMonth, kDays, hleap]

theorem month_split (y : Int) (hm : 1 ≤ m ∧ m ≤ 12) :
    (12 * y + m - 1) / 12 = y ∧ (12 * y + m - 1) % 12 + 1 = m := by omega

theorem daysFromCivil_firstOfMonth (y d : Int) (hm : 1 ≤ m ∧ m ≤ 12) :
    daysFromCivil y m d = firstOfMonth (12 * y + m - 1) + d - 1 := by
  obtain ⟨hyear, hmonth⟩ := month_split y hm
  rw [firstOfMonth, hyear, hmonth, daysFromCivil_march y d hm, daysFromCivil_march y 1 hm]
  omega

theorem firstOfMonth_succ (k : Int) :
    firstOfMonth (k + 1) = firstOfMonth k + daysInMonth (k / 12) (k % 12 + 1) := by
  have hstep := leapDays_step (k / 12)
  obtain ⟨m, hm⟩ : ∃ m, k % 12 + 1 = m := ⟨_, rfl⟩
  obtain ⟨hlow, hhigh⟩ : 1 ≤ m ∧ m ≤ 12 := by omega
  rw [firstOfMonth, firstOfMonth, hm, daysFromCivil_march _ 1 ⟨hlow, hhigh⟩,
    daysFromCivil_march _ 1 (m := (k + 1) % 12 + 1) (by omega)]
  by_cases hlast : m = 12
  · have hyear : (k + 1) / 12 = k / 12 + 1 := by omega
    have hmonth : (k + 1) % 12 + 1 = 1 := by omega
    rw [hyear, hmonth, hlast]
    simp [daysInMonth, kDays]
    omega
  · have hyear : (k + 1) / 12 = k / 12 := by omega
    have hmonth : (k + 1) % 12 + 1 = m + 1 := by omega
    rw [hyear, hmonth]
    cases hleap : leapYear (k / 12) <;> rw [hleap] at hstep <;> interval_cases m <;>
      simp [daysInMonth, hleap, kDays] at hstep hlast ⊢ <;> omega

theorem firstOfMonth_strictMono : StrictMono firstOfMonth := by
  apply strictMono_int_of_lt_succ
  intro k
  have hdays := daysInMonth_range (k / 12) (m := k % 12 + 1) (by omega)
  rw [firstOfMonth_succ]
  omega

variable {r s : Int × Int × Int}

/-- Days are counted in the order of dates. -/
theorem days_lt (hr : ValidDate r) (hs : ValidDate s) (h : ¬DateLe s r) :
    daysFromCivil r.1 r.2.1 r.2.2 < daysFromCivil s.1 s.2.1 s.2.2 := by
  obtain ⟨hmr, hdr, hdr'⟩ := hr
  obtain ⟨hms, hds, hds'⟩ := hs
  rw [daysFromCivil_firstOfMonth _ _ hmr, daysFromCivil_firstOfMonth _ _ hms]
  unfold DateLe at h
  by_cases hsame : 12 * r.1 + r.2.1 = 12 * s.1 + s.2.1
  · rw [hsame]
    omega
  · have hle : firstOfMonth (12 * r.1 + r.2.1 - 1 + 1) ≤ firstOfMonth (12 * s.1 + s.2.1 - 1) :=
      firstOfMonth_strictMono.monotone (by omega)
    obtain ⟨hyear, hmonth⟩ := month_split r.1 hmr
    rw [firstOfMonth_succ, hyear, hmonth] at hle
    omega

theorem days_le_iff (hr : ValidDate r) (hs : ValidDate s) :
    daysFromCivil r.1 r.2.1 r.2.2 ≤ daysFromCivil s.1 s.2.1 s.2.2 ↔ DateLe r s := by
  refine ⟨fun h => ?_, fun h => ?_⟩
  · by_contra hnot
    have hlt := days_lt hs hr hnot
    omega
  · by_cases hback : DateLe s r
    · have hsame : r = s := by
        unfold DateLe at h hback
        ext <;> omega
      rw [hsame]
    · exact Int.le_of_lt (days_lt hr hs hback)

theorem eq_of_days (hr : ValidDate r) (hs : ValidDate s)
    (h : daysFromCivil r.1 r.2.1 r.2.2 = daysFromCivil s.1 s.2.1 s.2.2) : r = s := by
  have hle := (days_le_iff hr hs).mp (Int.le_of_eq h)
  have hge := (days_le_iff hs hr).mp (Int.le_of_eq h.symm)
  unfold DateLe at hle hge
  ext <;> omega

theorem civilFromDays_valid (z : Int) : ValidDate (civilFromDays z) := by
  obtain ⟨era, yoe, doy, mp, -, hyears, hdoy, hleap, hmp, hcivil⟩ := civilFromDays_values z
  obtain ⟨hmonth, hday, -, -⟩ := civilFromDays_spec z
  refine ⟨hmonth, hday.1, ?_⟩
  rw [hcivil]
  obtain ⟨hlow, hhigh⟩ : 0 ≤ mp ∧ mp ≤ 11 := by omega
  interval_cases mp
  case «11» =>
    -- The last month is February: its 29th day is the last day of the year.
    by_cases hlast : doy = 365
    · have hyear : leapYear (yoe + era * 400 + 1) = true := by
        rw [leapYear_iff]
        omega
      simp [daysInMonth, hyear]
      omega
    · have hfeb := (daysInMonth_range (yoe + era * 400 + 1) (m := 2) (by decide)).1
      simp
      omega
  all_goals
    simp [daysInMonth, kDays]
    omega

/-- Both directions. -/
theorem civilFromDays_daysFromCivil (hr : ValidDate r) :
    civilFromDays (daysFromCivil r.1 r.2.1 r.2.2) = r :=
  eq_of_days (civilFromDays_valid _) hr (civilFromDays_spec _).days

theorem nextDate_valid (hr : ValidDate r) : ValidDate (nextDate r) := by
  obtain ⟨hm, hd, hd'⟩ := hr
  unfold nextDate
  split
  · exact ⟨hm, by dsimp only; omega, by dsimp only; omega⟩
  · split
    · have hrange := daysInMonth_range r.1 (m := r.2.1 + 1) (by omega)
      exact ⟨by dsimp only; omega, Int.le_refl 1, by dsimp only; omega⟩
    · have hrange := daysInMonth_range (r.1 + 1) (m := 1) (by decide)
      exact ⟨⟨Int.le_refl 1, by simp⟩, Int.le_refl 1, by dsimp only; omega⟩

theorem days_nextDate (hr : ValidDate r) :
    daysFromCivil (nextDate r).1 (nextDate r).2.1 (nextDate r).2.2 =
      daysFromCivil r.1 r.2.1 r.2.2 + 1 := by
  have hnext := (nextDate_valid hr).1
  obtain ⟨hm, hd, hd'⟩ := hr
  obtain ⟨hyear, hmonth⟩ := month_split r.1 hm
  have hstep := firstOfMonth_succ (12 * r.1 + r.2.1 - 1)
  rw [hyear, hmonth] at hstep
  rw [daysFromCivil_firstOfMonth _ _ hnext, daysFromCivil_firstOfMonth _ _ hm]
  unfold nextDate
  split
  · dsimp only
    omega
  · split
    · have hk : 12 * r.1 + (r.2.1 + 1) - 1 = 12 * r.1 + r.2.1 - 1 + 1 := by omega
      dsimp only
      rw [hk]
      omega
    · have hk : 12 * (r.1 + 1) + 1 - 1 = 12 * r.1 + r.2.1 - 1 + 1 := by omega
      dsimp only
      rw [hk]
      omega

theorem civilFromDays_succ (z : Int) : civilFromDays (z + 1) = nextDate (civilFromDays z) := by
  have hnext := days_nextDate (civilFromDays_valid z)
  rw [(civilFromDays_spec z).days] at hnext
  rw [← hnext]
  exact civilFromDays_daysFromCivil (nextDate_valid (civilFromDays_valid z))

theorem u32_of {x : Int} (h : 0 ≤ x ∧ x < 0x100000000) : u32 x = x :=
  Int.emod_eq_of_lt h.1 h.2

/-- No word of `DaysFromCivil` overflows. -/
theorem daysFromCivilU_eq (y : Int) (hm : 1 ≤ m ∧ m ≤ 12) (hd : 1 ≤ d ∧ d ≤ 99) :
    daysFromCivilU y m d = daysFromCivil y m d := by
  obtain ⟨y', yoe, mp, hy, hyoe, hyears, hmp, hdays⟩ := daysFromCivil_values y d hm
  simp only [daysFromCivilU, tdiv_400]
  rw [hdays, ← hy, ← hmp, ← hyoe, u32_of (x := yoe) (by omega), u32_of (x := mp) (by omega),
    u32_of (x := 153 * mp + 2) (by omega), u32_of (x := (153 * mp + 2) / 5 + d - 1) (by omega),
    u32_of (by omega)]

/-! ## In 64 bits -/

/-- The last day that `CivilFromDays` can take to the start of its era. -/
def lastDay : Int := 9223372036854056339

theorem civilFromDays64_iff (hd : Fits d) (r : Int × Int × Int) :
    civilFromDays64 d = some r ↔ d ≤ lastDay ∧ r = civilFromDays d := by
  by_cases hle : d ≤ lastDay
  · have hsum : Fits (d + 719468) := by
      unfold lastDay at hle
      obtain ⟨hlow, -⟩ := hd
      exact ⟨by omega, by omega⟩
    rw [civilFromDays64_eq hd hsum, Option.some_inj, eq_comm, and_iff_right hle]
  · have hsum : ¬Fits (d + 719468) := by
      unfold lastDay at hle
      unfold Fits
      omega
    simp [civilFromDays64, fit_of_not hsum, hle]

theorem days64_iff (hr : ValidDate r) (d : Int) : daysFromCivil64 r.1 r.2.1 r.2.2 = some d ↔
      d = daysFromCivil r.1 r.2.1 r.2.2 ∧ Fits d ∧ d ≤ lastDay := by
  obtain ⟨hm, hd, hd'⟩ := hr
  have hrange := daysInMonth_range r.1 hm
  rw [daysFromCivil64_eq_some hm ⟨hd, by omega⟩]
  unfold Fits lastDay
  omega

/-- Does a day come back from its date? -/
def DayReturns (d : Int) : Prop :=
  ∃ r, civilFromDays64 d = some r ∧ ValidDate r ∧ daysFromCivil64 r.1 r.2.1 r.2.2 = some d

/-- Does a date come back from its day? -/
def DateReturns (r : Int × Int × Int) : Prop :=
  ∃ d, daysFromCivil64 r.1 r.2.1 r.2.2 = some d ∧ civilFromDays64 d = some r

/-- Does the next day have the next date? -/
def NextFollows (d : Int) : Prop :=
  ∃ r, civilFromDays64 d = some r ∧ civilFromDays64 (d + 1) = some (nextDate r)

theorem dayReturns_iff (hd : Fits d) : DayReturns d ↔ d ≤ lastDay := by
  constructor
  · intro ⟨r, hr, _, _⟩
    exact ((civilFromDays64_iff hd r).mp hr).1
  · intro hle
    have hvalid := civilFromDays_valid d
    refine ⟨civilFromDays d, (civilFromDays64_iff hd _).mpr ⟨hle, rfl⟩, hvalid, ?_⟩
    exact (days64_iff hvalid d).mpr ⟨(civilFromDays_spec d).days.symm, hd, hle⟩

theorem dateReturns_iff (hr : ValidDate r) : DateReturns r ↔
    DateLe (-25252734927764585, 6, 7) r ∧ DateLe r (25252734927766554, 9, 25) := by
  have hfirst : civilFromDays (-9223372036854775808) = (-25252734927764585, 6, 7) := by decide
  have hlast : civilFromDays lastDay = (25252734927766554, 9, 25) := by decide
  rw [← hfirst, ← hlast, ← days_le_iff (civilFromDays_valid _) hr,
    ← days_le_iff hr (civilFromDays_valid _), (civilFromDays_spec _).days,
    (civilFromDays_spec _).days]
  constructor
  · intro ⟨d, hd, _⟩
    obtain ⟨rfl, hfits, hle⟩ := (days64_iff hr d).mp hd
    exact ⟨hfits.1, hle⟩
  · intro ⟨hlow, hle⟩
    have hfits : Fits (daysFromCivil r.1 r.2.1 r.2.2) := ⟨hlow, by unfold lastDay at hle; omega⟩
    exact ⟨_, (days64_iff hr _).mpr ⟨rfl, hfits, hle⟩,
      (civilFromDays64_iff hfits r).mpr ⟨hle, (civilFromDays_daysFromCivil hr).symm⟩⟩

theorem nextFollows_iff (hd : Fits d) : NextFollows d ↔ d < lastDay := by
  have hnext : d ≤ lastDay → Fits (d + 1) := by
    unfold lastDay
    obtain ⟨hlow, -⟩ := hd
    exact fun hle => ⟨by omega, by omega⟩
  constructor
  · intro ⟨r, hr, hr'⟩
    have hle := ((civilFromDays64_iff hd r).mp hr).1
    have hle' := ((civilFromDays64_iff (hnext hle) _).mp hr').1
    omega
  · intro hlt
    have hd' := hnext (Int.le_of_lt hlt)
    exact ⟨_, (civilFromDays64_iff hd _).mpr ⟨by omega, rfl⟩,
      (civilFromDays64_iff hd' _).mpr ⟨by omega, (civilFromDays_succ d).symm⟩⟩

/-- The pair is a bijection of days and dates, in order, as far as it does not overflow.  The pairs
    of `ical.cpp` and `tz.cpp` are one, and the days of `rfc5322.cpp` are theirs. -/
theorem days_dates_inverse (hd : Fits d) (hr : ValidDate r) :
    (DayReturns d ↔ d ≤ 9223372036854056339) ∧
    (DateReturns r ↔
      DateLe (-25252734927764585, 6, 7) r ∧ DateLe r (25252734927766554, 9, 25)) ∧
    (NextFollows d ↔ d < 9223372036854056339) ∧
    Tz.daysFromCivil64 = daysFromCivil64 ∧ Tz.civilFromDays64 = civilFromDays64 ∧
    ∀ x, daysFromCivil64 r.1 r.2.1 r.2.2 = some x →
      daysFromCivilU r.1 r.2.1 r.2.2 = x := by
  refine ⟨dayReturns_iff hd, dateReturns_iff hr, nextFollows_iff hd, rfl, rfl, ?_⟩
  intro x hx
  obtain ⟨hm, hday, hday'⟩ := hr
  have hrange := daysInMonth_range r.1 hm
  rw [daysFromCivilU_eq _ hm ⟨hday, by omega⟩]
  exact ((daysFromCivil64_eq_some hm ⟨hday, by omega⟩).mp hx).1.symm

/-- A leap day. -/
theorem days_dates_inverse_leap :
    DayReturns 19782 ∧ DateReturns (2024, 2, 29) ∧ NextFollows 19782 := by
  have hdate : ValidDate (2024, 2, 29) := by
    unfold ValidDate
    decide
  obtain ⟨hday, hreturns, hnext, -⟩ := days_dates_inverse (d := 19782) (by decide) hdate
  refine ⟨hday.mpr (by decide), hreturns.mpr ?_, hnext.mpr (by decide)⟩
  unfold DateLe
  decide

/-- The last day of 64 bits has no date. -/
theorem last_day_overflows : ¬∀ d, Fits d → DayReturns d := by
  intro h
  have hle := (dayReturns_iff (by decide)).mp (h 9223372036854775807 (by decide))
  exact absurd hle (by decide)

end QuackMail.Ical

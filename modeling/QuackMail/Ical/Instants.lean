import Mathlib.Tactic.IntervalCases
import Mathlib.Tactic.Ring
import QuackMail.Ical.Component
import QuackMail.Tz.Overflow

/-! # Times of calendar objects

`ParseDateTime`, and the calendar of `ical.cpp` in 64 bits: a value that does not fit an `int64_t`
is an overflow, and nothing comes of it.
-/

namespace QuackMail.Ical

open Calendar Tz

variable {x y d m : Int}

/-- `DaysFromCivil`. -/
def daysFromCivil64 (y m d : Int) : Option Int := do
  let y ← fit (if m ≤ 2 then y - 1 else y)
  let shifted ← fit (if 0 ≤ y then y else y - 399)
  let era := shifted.tdiv 400
  let before ← fit (era * 400)
  let yoe ← fit (y - before)
  let doy := (153 * (m + (if m > 2 then -3 else 9)) + 2).tdiv 5 + d - 1
  let doe ← fit (yoe * 365 + yoe.tdiv 4 - yoe.tdiv 100 + doy)
  let days ← fit (era * 146097)
  let days ← fit (days + doe)
  fit (days - 719468)

/-- `CivilFromDays`. -/
def civilFromDays64 (z : Int) : Option (Int × Int × Int) := do
  let z ← fit (z + 719468)
  let shifted ← fit (if 0 ≤ z then z else z - 146096)
  let era := shifted.tdiv 146097
  let before ← fit (era * 146097)
  let doe ← fit (z - before)
  let yoe := (doe - doe.tdiv 1460 + doe.tdiv 36524 - doe.tdiv 146096).tdiv 365
  let years ← fit (era * 400)
  let yy ← fit (yoe + years)
  let doy ← fit (doe - (365 * yoe + yoe.tdiv 4 - yoe.tdiv 100))
  let mp := (5 * doy + 2).tdiv 153
  let d := doy - (153 * mp + 2).tdiv 5 + 1
  let m := mp + (if mp < 10 then 3 else -9)
  let y ← fit (if m ≤ 2 then yy + 1 else yy)
  some (y, m, d)

/-- `WeekdayFromDays`. -/
def weekdayFromDays64 (days : Int) : Option Int :=
  (fit (days + 4)).map fun _ => weekdayFromDays days

/-- `DaysInMonth`: there are twelve entries in its table. -/
def daysInMonth64 (y m : Int) : Option Int :=
  if 1 ≤ m ∧ m ≤ 12 then some (daysInMonth y m) else none

/-- `MakeWall`. -/
def makeWall (y mo d h mi s : Int) : Int := daysFromCivil y mo d * 86400 + h * 3600 + mi * 60 + s

/-- What `BreakWall` sets. -/
structure Clock where
  y : Int
  mo : Int
  d : Int
  h : Int
  mi : Int
  s : Int

/-- `BreakWall`. -/
def breakWall64 (wall : Int) : Option Clock := do
  let days := if wall.tmod 86400 < 0 then wall.tdiv 86400 - 1 else wall.tdiv 86400
  let rem := if wall.tmod 86400 < 0 then wall.tmod 86400 + 86400 else wall.tmod 86400
  let civil ← civilFromDays64 days
  some ⟨civil.1, civil.2.1, civil.2.2, rem.tdiv 3600, (rem.tmod 3600).tdiv 60, rem.tmod 60⟩

/-! ## Dates and times -/

structure DateTime where
  epoch : Int := 0
  allDay : Bool := false
  tzid : Bytes := []
  utc : Bool := false
  valid : Bool := false

/-- `std::atoi` of a part. -/
def atoiAt (v : Bytes) (start len : Nat) : Int := toInt (strtoll ((v.drop start).take len))

/-- `InlineOffset`. -/
def inlineOffset (calendar : Option Component) (tzid : Bytes) : Option Int :=
  let zones := calendar.elim [] fun c => c.children.filter (fun c => c.name = bytes "VTIMEZONE")
  (zones.filter fun vtz => lower (vtz.get (bytes "TZID")) = lower tzid).findSome? fun vtz =>
    [bytes "STANDARD", bytes "DAYLIGHT"].findSome? fun want =>
      (vtz.children.find? fun c => c.name = want).bind fun sub =>
        let text := sub.get (bytes "TZOFFSETTO")
        if text.length < 5 then none
        else
          let sign : Int := if text.head? = some (ch '-') then -1 else 1
          let ss := if 7 ≤ text.length then atoiAt text 5 2 else 0
          some (sign * (atoiAt text 1 2 * 3600 + atoiAt text 3 2 * 60 + ss))

/-- A time on the clock of a zone: of the database, or of the calendar itself; elsewhere it is read
    as UTC. -/
def zonedTime (zones : Bytes → Option Zone) (calendar : Option Component) (tzid : Bytes)
    (wall : Int) : DateTime :=
  if tzid = [] then { epoch := wall, valid := true }
  else
    match zones tzid with
    | some z => { epoch := (toUtc z wall).utc, tzid := tzid, valid := true }
    | none =>
      match inlineOffset calendar tzid with
      | some offset => { epoch := wall - offset, tzid := tzid, valid := true }
      | none => { epoch := wall, tzid := tzid, valid := true }

/-- `ParseDateTime`, with the zones that `FindZone` finds. -/
def parseDateTime (zones : Bytes → Option Zone) (value : Bytes) (params : List (Bytes × Bytes))
    (calendar : Option Component) : DateTime :=
  let v := trim value
  let tzid := ((params.filter fun kv => kv.1 = bytes "TZID").getLast?).elim [] Prod.snd
  let vtype := ((params.filter fun kv => kv.1 = bytes "VALUE").getLast?).elim []
    fun kv => upper kv.2
  let y := atoiAt v 0 4
  let mo := atoiAt v 4 2
  let d := atoiAt v 6 2
  if v.length = 8 ∧ ch 'T' ∉ v then
    if mo < 1 ∨ mo > 12 ∨ d < 1 ∨ d > 31 then {}
    else { epoch := makeWall y mo d 0 0 0, allDay := true, tzid := tzid, valid := true }
  else if vtype = bytes "DATE" then {}
  else if v.length < 15 ∨ v[8]? ≠ some (ch 'T') then {}
  else
    let h := atoiAt v 9 2
    let mi := atoiAt v 11 2
    let s := atoiAt v 13 2
    if mo < 1 ∨ mo > 12 ∨ d < 1 ∨ d > 31 ∨ h > 23 ∨ mi > 59 ∨ s > 60 then {}
    else
      let wall := makeWall y mo d h mi s
      if v[15]? = some (ch 'Z') ∨ v[15]? = some (ch 'z') then
        { epoch := wall, utc := true, valid := true }
      else zonedTime zones calendar tzid wall

/-! ## The calendar -/

theorem tdiv_era (z : Int) {n : Int} (hn : 0 < n) :
    (if 0 ≤ z then z else z - (n - 1)).tdiv n = z / n := by
  split
  · rename_i hz
    exact Int.tdiv_eq_ediv_of_nonneg hz
  · have hneg : z - (n - 1) = -(n - 1 - z) := by omega
    have hsplit := Int.mul_ediv_add_emod z n
    have hlow := Int.emod_nonneg z (Int.ne_of_gt hn)
    have hhigh := Int.emod_lt_of_pos z hn
    rw [hneg, Int.neg_tdiv, Int.tdiv_eq_ediv_of_nonneg (by omega)]
    generalize z / n = q at hsplit
    have hq : (n - 1 - z) / n = -q := by
      apply Int.le_antisymm
      · apply Int.le_of_lt_add_one
        apply Int.ediv_lt_of_lt_mul hn
        have hmul : (-q + 1) * n = -(n * q) + n := by ring
        omega
      · apply Int.le_ediv_of_mul_le hn
        have hmul : -q * n = -(n * q) := by ring
        omega
    rw [hq, Int.neg_neg]

theorem tdiv_400 (y : Int) : (if 0 ≤ y then y else y - 399).tdiv 400 = y / 400 :=
  @tdiv_era y 400 (by decide)

theorem tdiv_146097 (z : Int) : (if 0 ≤ z then z else z - 146096).tdiv 146097 = z / 146097 :=
  @tdiv_era z 146097 (by decide)

theorem fold_floor (wall : Int) :
    (if wall.tmod 86400 < 0 then wall.tdiv 86400 - 1 else wall.tdiv 86400) = wall / 86400 := by
  rcases Int.lt_or_le wall 0 with hneg | hpos
  · have hswap : wall = -(-wall) := by omega
    rw [hswap, Int.neg_tmod, Int.neg_tdiv, Int.tmod_eq_emod_of_nonneg (by omega),
      Int.tdiv_eq_ediv_of_nonneg (by omega)]
    split <;> omega
  · rw [Int.tmod_eq_emod_of_nonneg hpos, Int.tdiv_eq_ediv_of_nonneg hpos]
    split <;> omega

/-- The day of a year of an era, from the day of the era.  Only a leap year has the last. -/
theorem dayOfYear_range {doe yoe : Int} (hlow : 0 ≤ doe) (hhigh : doe < 146097)
    (hyoe : yoe = (doe - doe / 1460 + doe / 36524 - doe / 146096) / 365) :
    0 ≤ doe - (365 * yoe + yoe / 4 - yoe / 100) ∧
      doe - (365 * yoe + yoe / 4 - yoe / 100) ≤ 365 ∧
      (doe - (365 * yoe + yoe / 4 - yoe / 100) = 365 →
        yoe = 399 ∨ (yoe + 1) % 4 = 0 ∧ (yoe + 1) % 100 ≠ 0) := by
  by_cases hlast : doe = 146096
  · subst hlast hyoe
    decide
  have hzero : doe / 146096 = 0 := by omega
  obtain ⟨century, hcentury⟩ : ∃ century, century = doe / 36524 := ⟨_, rfl⟩
  obtain ⟨hcentury0, hcentury3⟩ : 0 ≤ century ∧ century ≤ 3 := by omega
  have hsame : yoe / 100 = century := by
    interval_cases century <;> omega
  refine ⟨by omega, by omega, fun hdoy => Or.inr ?_⟩
  have hfours : yoe / 4 + 1 ≤ doe / 1460 := by omega
  have hfour : yoe % 4 = 3 := by omega
  refine ⟨by omega, fun hhundred => ?_⟩
  have hyear : yoe = 100 * century + 99 := by omega
  omega

/-- What `CivilFromDays` answers. -/
structure CivilOf (z : Int) (r : Int × Int × Int) : Prop where
  month : 1 ≤ r.2.1 ∧ r.2.1 ≤ 12
  day : 1 ≤ r.2.2 ∧ r.2.2 ≤ 31
  days : daysFromCivil r.1 r.2.1 r.2.2 = z
  year : 146097 * r.1 ≤ 400 * z + 400000000 ∧ 400 * z - 400000000 ≤ 146097 * r.1

/-- The values of `DaysFromCivil`: a year that starts in March, the year of its era, and the
    month. -/
theorem daysFromCivil_values (y d : Int) (hm : 1 ≤ m ∧ m ≤ 12) : ∃ y' yoe mp : Int,
    y' = (if m ≤ 2 then y - 1 else y) ∧ yoe = y' - y' / 400 * 400 ∧ (0 ≤ yoe ∧ yoe ≤ 399) ∧
    mp = m + (if m > 2 then -3 else 9) ∧
    daysFromCivil y m d = y' / 400 * 146097 +
      (yoe * 365 + yoe / 4 - yoe / 100 + ((153 * mp + 2) / 5 + d - 1)) - 719468 := by
  simp only [daysFromCivil, tdiv_400]
  generalize hy : (if m ≤ 2 then y - 1 else y) = y'
  generalize hm' : m + (if m > 2 then -3 else 9) = mp
  have hyoe : 0 ≤ y' - y' / 400 * 400 ∧ y' - y' / 400 * 400 ≤ 399 := by omega
  rw [Int.tdiv_eq_ediv_of_nonneg (show 0 ≤ 153 * mp + 2 by omega),
    Int.tdiv_eq_ediv_of_nonneg hyoe.1, Int.tdiv_eq_ediv_of_nonneg hyoe.1]
  exact ⟨y', _, mp, rfl, rfl, hyoe, rfl, rfl⟩

/-- The values of `CivilFromDays`: a year of an era, a day of that year and its month, where a
    year starts in March. -/
theorem civilFromDays_values (z : Int) : ∃ era yoe doy mp : Int,
    z + 719468 = era * 146097 + (365 * yoe + yoe / 4 - yoe / 100 + doy) ∧
    (0 ≤ yoe ∧ yoe ≤ 399) ∧ (0 ≤ doy ∧ doy ≤ 365) ∧
    (doy = 365 → yoe = 399 ∨ (yoe + 1) % 4 = 0 ∧ (yoe + 1) % 100 ≠ 0) ∧
    mp = (5 * doy + 2) / 153 ∧
    civilFromDays z =
      (if mp + (if mp < 10 then 3 else -9) ≤ 2 then yoe + era * 400 + 1 else yoe + era * 400,
        mp + (if mp < 10 then 3 else -9), doy - (153 * mp + 2) / 5 + 1) := by
  unfold civilFromDays
  dsimp only
  rw [tdiv_146097]
  generalize hq : (z + 719468) / 146097 = era
  generalize hdoe : z + 719468 - era * 146097 = doe
  have hrange : 0 ≤ doe ∧ doe < 146097 := by omega
  rw [Int.tdiv_eq_ediv_of_nonneg hrange.1, Int.tdiv_eq_ediv_of_nonneg hrange.1,
    Int.tdiv_eq_ediv_of_nonneg hrange.1,
    Int.tdiv_eq_ediv_of_nonneg
      (show 0 ≤ doe - doe / 1460 + doe / 36524 - doe / 146096 by omega)]
  generalize hyoe : (doe - doe / 1460 + doe / 36524 - doe / 146096) / 365 = yoe
  have hyears : 0 ≤ yoe ∧ yoe ≤ 399 := by omega
  obtain ⟨hlow, hhigh, hleap⟩ := dayOfYear_range hrange.1 hrange.2 hyoe.symm
  rw [Int.tdiv_eq_ediv_of_nonneg hyears.1, Int.tdiv_eq_ediv_of_nonneg hyears.1]
  generalize hdoy : doe - (365 * yoe + yoe / 4 - yoe / 100) = doy at hlow hhigh hleap ⊢
  rw [Int.tdiv_eq_ediv_of_nonneg (show 0 ≤ 5 * doy + 2 by omega)]
  rw [Int.tdiv_eq_ediv_of_nonneg (show 0 ≤ 153 * ((5 * doy + 2) / 153) + 2 by omega)]
  exact ⟨era, yoe, doy, _, by omega, hyears, ⟨hlow, hhigh⟩, hleap, rfl, rfl⟩

theorem civilFromDays_spec (z : Int) : CivilOf z (civilFromDays z) := by
  obtain ⟨era, yoe, doy, mp, hz, hyears, hdoy, -, hmp, hcivil⟩ := civilFromDays_values z
  rw [hcivil]
  have hmonth : 1 ≤ mp + (if mp < 10 then 3 else -9) ∧ mp + (if mp < 10 then 3 else -9) ≤ 12 := by
    split <;> omega
  refine ⟨hmonth, ?_, ?_, ?_⟩
  · dsimp only
    omega
  · obtain ⟨y', yoe', mp', hy, hyoe, -, hmp', hdays⟩ := daysFromCivil_values
      (if mp + (if mp < 10 then 3 else -9) ≤ 2 then yoe + era * 400 + 1 else yoe + era * 400)
      (doy - (153 * mp + 2) / 5 + 1) hmonth
    have hy : y' = yoe + era * 400 := by omega
    have hera : y' / 400 = era := by omega
    have hsame : yoe' = yoe := by omega
    have hmp' : mp' = mp := by omega
    rw [hsame, hera, hmp'] at hdays
    dsimp only
    omega
  · split <;> omega

/-- The days are about as many as the years have. -/
theorem daysFromCivil_near (y : Int) (hm : 1 ≤ m ∧ m ≤ 12) (hd : 1 ≤ d ∧ d ≤ 31) :
    146097 * y - 400000000 ≤ 400 * daysFromCivil y m d ∧
      400 * daysFromCivil y m d ≤ 146097 * y := by
  obtain ⟨y', yoe, mp, hy, hyoe, hyears, hmp, hdays⟩ := daysFromCivil_values y d hm
  omega

/-- What comes of it is the number of days, where that fits before the epoch is taken off too. -/
theorem daysFromCivil64_eq_some (hm : 1 ≤ m ∧ m ≤ 12) (hd : 1 ≤ d ∧ d ≤ 31) :
    daysFromCivil64 y m d = some x ↔ x = daysFromCivil y m d ∧ Fits x ∧ Fits (x + 719468) := by
  constructor
  · intro h
    simp only [daysFromCivil64, Option.bind_eq_bind, Option.bind_eq_some_iff, fit_eq_some] at h
    obtain ⟨_, ⟨-, rfl⟩, _, ⟨-, rfl⟩, _, ⟨-, rfl⟩, _, ⟨-, rfl⟩, _, ⟨-, rfl⟩, _, ⟨-, rfl⟩, _,
      ⟨hsum, rfl⟩, hdays, rfl⟩ := h
    exact ⟨rfl, hdays, by rwa [Int.sub_add_cancel]⟩
  · rintro ⟨rfl, hfits, hsum⟩
    have hnear := daysFromCivil_near y hm hd
    obtain ⟨y', yoe, mp, hy, hyoe, hyears, hmp, hdays⟩ := daysFromCivil_values y d hm
    obtain ⟨⟨hlow, -⟩, -, hhigh⟩ := And.intro hfits hsum
    unfold daysFromCivil64
    rw [← hy, ← hmp, Int.tdiv_eq_ediv_of_nonneg (show 0 ≤ 153 * mp + 2 by omega),
      fit_bind ⟨by omega, by omega⟩, fit_bind (by unfold Fits; split <;> omega)]
    simp only [tdiv_400]
    rw [fit_bind ⟨by omega, by omega⟩, ← hyoe, fit_bind ⟨by omega, by omega⟩,
      Int.tdiv_eq_ediv_of_nonneg hyears.1, Int.tdiv_eq_ediv_of_nonneg hyears.1,
      fit_bind ⟨by omega, by omega⟩, fit_bind ⟨by omega, by omega⟩, fit_bind ⟨by omega, by omega⟩,
      ← hdays, fit_of ⟨by omega, by omega⟩]

/-- The first second of a day: it fits, or nothing comes of it. -/
theorem midnight_bind {β : Type} (hm : 1 ≤ m ∧ m ≤ 12) (hd : 1 ≤ d ∧ d ≤ 31) (k : Int → Option β) :
    (daysFromCivil64 y m d >>= fun days => fit (days * 86400) >>= k) =
      if Fits (daysFromCivil y m d * 86400) then k (daysFromCivil y m d * 86400) else none := by
  split
  · rename_i h
    obtain ⟨hlow, hhigh⟩ := h
    rw [(daysFromCivil64_eq_some hm hd).mpr ⟨rfl, ⟨by omega, by omega⟩, by omega, by omega⟩]
    exact fit_bind ⟨hlow, hhigh⟩ k
  · rename_i h
    cases hdays : daysFromCivil64 y m d with
    | none => rfl
    | some days =>
      obtain ⟨rfl, -⟩ := (daysFromCivil64_eq_some hm hd).mp hdays
      show (fit (daysFromCivil y m d * 86400) >>= k) = none
      rw [fit_of_not h]
      rfl

theorem civilFromDays64_eq {z : Int} (h : Fits z) (hsum : Fits (z + 719468)) :
    civilFromDays64 z = some (civilFromDays z) := by
  obtain ⟨⟨hmin, -⟩, -, hmax⟩ := And.intro h hsum
  unfold civilFromDays64
  rw [fit_bind hsum, fit_bind (by unfold Fits; split <;> omega)]
  simp only [tdiv_146097, civilFromDays]
  generalize hdoe : z + 719468 - (z + 719468) / 146097 * 146097 = doe
  have hrange : 0 ≤ doe ∧ doe < 146097 := by omega
  rw [fit_bind ⟨by omega, by omega⟩, hdoe, fit_bind ⟨by omega, by omega⟩,
    Int.tdiv_eq_ediv_of_nonneg hrange.1, Int.tdiv_eq_ediv_of_nonneg hrange.1,
    Int.tdiv_eq_ediv_of_nonneg hrange.1,
    Int.tdiv_eq_ediv_of_nonneg
      (show 0 ≤ doe - doe / 1460 + doe / 36524 - doe / 146096 by omega)]
  generalize hyoe : (doe - doe / 1460 + doe / 36524 - doe / 146096) / 365 = yoe
  have hyears : 0 ≤ yoe ∧ yoe ≤ 399 := by omega
  rw [Int.tdiv_eq_ediv_of_nonneg hyears.1, Int.tdiv_eq_ediv_of_nonneg hyears.1,
    fit_bind ⟨by omega, by omega⟩, fit_bind ⟨by omega, by omega⟩, fit_bind ⟨by omega, by omega⟩,
    fit_bind (by unfold Fits; split <;> omega)]

theorem breakWall64_eq {wall : Int} (h : Fits wall) :
    ∃ h mi s, breakWall64 wall = some ⟨(civilFromDays (wall / 86400)).1,
      (civilFromDays (wall / 86400)).2.1, (civilFromDays (wall / 86400)).2.2, h, mi, s⟩ := by
  obtain ⟨hlow, hhigh⟩ := h
  unfold breakWall64
  simp only [fold_floor]
  rw [civilFromDays64_eq ⟨by omega, by omega⟩ ⟨by omega, by omega⟩]
  exact ⟨_, _, _, rfl⟩

/-! ## Starts -/

theorem digitsFrom_lt (val : Nat) (s : Bytes) : digitsFrom val s < (val + 1) * 10 ^ s.length := by
  induction s generalizing val with
  | nil => simp [digitsFrom]
  | cons c s ih =>
    rw [digitsFrom]
    split
    · rename_i hdigit
      have hc : c.toNat - 48 ≤ 9 := by
        simp only [isDigit, Bool.and_eq_true, decide_eq_true_eq] at hdigit
        have hnine : c.toNat ≤ (ch '9').toNat := UInt8.le_iff_toNat_le.mp hdigit.2
        have h57 : (ch '9').toNat = 57 := rfl
        omega
      calc digitsFrom (val * 10 + (c.toNat - 48)) s
          < (val * 10 + (c.toNat - 48) + 1) * 10 ^ s.length := ih _
        _ ≤ ((val + 1) * 10) * 10 ^ s.length := Nat.mul_le_mul_right _ (by omega)
        _ = (val + 1) * 10 ^ (c :: s).length := by
          rw [List.length_cons, Nat.pow_succ, Nat.mul_assoc, Nat.mul_comm 10]
    · calc val < val + 1 := Nat.lt_succ_self val
        _ ≤ (val + 1) * 10 ^ (c :: s).length :=
          Nat.le_mul_of_pos_right _ (Nat.pow_pos (by decide))

theorem strtoll_lt (s : Bytes) : -10 ^ s.length < strtoll s ∧ strtoll s < 10 ^ s.length := by
  have hbound : ∀ t : Bytes, t.length ≤ s.length → (digitsFrom 0 t : Int) < 10 ^ s.length := by
    intro t ht
    have h := digitsFrom_lt 0 t
    have hpow := Nat.pow_le_pow_right (show 0 < 10 by decide) ht
    rw [Nat.zero_add, Nat.one_mul] at h
    exact_mod_cast Nat.lt_of_lt_of_le h hpow
  have hpos : (0 : Int) < 10 ^ s.length := by positivity
  have hlen := List.length_dropWhile_le isSpace s
  unfold strtoll
  cases hs : s.dropWhile isSpace with
  | nil => simp only; omega
  | cons c rest =>
    rw [hs, List.length_cons] at hlen
    have hrest := hbound rest (by omega)
    have hall := hbound (c :: rest) (by rw [List.length_cons]; omega)
    simp only
    split
    · omega
    · split <;> omega

theorem atoiAt_near (v : Bytes) (start : Nat) {len : Nat} (hlen : len ≤ 4) :
    -10 ^ len < atoiAt v start len ∧ atoiAt v start len < 10 ^ len := by
  have h := strtoll_lt ((v.drop start).take len)
  have hle : ((v.drop start).take len).length ≤ len := List.length_take_le _ _
  have hpow : (10 : Int) ^ ((v.drop start).take len).length ≤ 10 ^ len :=
    pow_le_pow_right₀ (by decide) hle
  have hpow4 : (10 : Int) ^ len ≤ 10 ^ 4 := pow_le_pow_right₀ (by decide) hlen
  have heq : atoiAt v start len = strtoll ((v.drop start).take len) := by
    apply Int.bmod_eq_of_le_mul_two <;> omega
  omega

theorem makeWall_near {y mo d h mi s : Int} (hy : -10000 < y ∧ y < 10000)
    (hmo : 1 ≤ mo ∧ mo ≤ 12) (hd : 1 ≤ d ∧ d ≤ 31) (hh : -100 < h ∧ h < 100)
    (hmi : -100 < mi ∧ mi < 100) (hs : -100 < s ∧ s < 100) :
    -500000000000 < makeWall y mo d h mi s ∧ makeWall y mo d h mi s < 500000000000 := by
  have hnear := daysFromCivil_near y hmo hd
  unfold makeWall
  omega

theorem toUtc_near {z : Zone} (h : z.Short) (wall : Int) :
    wall - 86400 < (toUtc z wall).utc ∧ (toUtc z wall).utc < wall + 86400 := by
  have hbefore := h.offset (wall - 86400)
  have hafter := h.offset (wall + 86400)
  unfold toUtc
  simp only [resolve_offset]
  split_ifs <;> simp only <;> omega

theorem fromUtc_near {z : Zone} (h : z.Short) (utc : Int) :
    utc - 86400 < fromUtc z utc ∧ fromUtc z utc < utc + 86400 := by
  have hoffset := h.offset utc
  rw [fromUtc, resolve_offset]
  omega

theorem inlineOffset_near {calendar : Option Component} {tzid : Bytes} {offset : Int}
    (h : inlineOffset calendar tzid = some offset) : -400000 < offset ∧ offset < 400000 := by
  obtain ⟨vtz, -, h⟩ := List.exists_of_findSome?_eq_some h
  obtain ⟨want, -, h⟩ := List.exists_of_findSome?_eq_some h
  obtain ⟨sub, -, h⟩ := Option.bind_eq_some_iff.mp h
  simp only at h
  split at h
  · cases h
  obtain rfl := Option.some.inj h
  generalize sub.get (bytes "TZOFFSETTO") = text
  have hh := atoiAt_near text 1 (show 2 ≤ 4 by decide)
  have hmm := atoiAt_near text 3 (show 2 ≤ 4 by decide)
  have hss := atoiAt_near text 5 (show 2 ≤ 4 by decide)
  norm_num at hh hmm hss
  split_ifs <;> omega

/-- A time that can be read is not far away. -/
theorem parseDateTime_near {zones : Bytes → Option Zone}
    (hzones : ∀ name z, zones name = some z → z.Short) (value : Bytes)
    (params : List (Bytes × Bytes)) (calendar : Option Component) :
    -600000000000 < (parseDateTime zones value params calendar).epoch ∧
      (parseDateTime zones value params calendar).epoch < 600000000000 := by
  have hy := atoiAt_near (trim value) 0 (show 4 ≤ 4 by decide)
  have hmo := atoiAt_near (trim value) 4 (show 2 ≤ 4 by decide)
  have hd := atoiAt_near (trim value) 6 (show 2 ≤ 4 by decide)
  have hh := atoiAt_near (trim value) 9 (show 2 ≤ 4 by decide)
  have hmi := atoiAt_near (trim value) 11 (show 2 ≤ 4 by decide)
  have hs := atoiAt_near (trim value) 13 (show 2 ≤ 4 by decide)
  norm_num at hy hmo hd hh hmi hs
  have hzoned : ∀ tzid wall, -500000000000 < wall ∧ wall < 500000000000 →
      -600000000000 < (zonedTime zones calendar tzid wall).epoch ∧
        (zonedTime zones calendar tzid wall).epoch < 600000000000 := by
    intro tzid wall hwall
    unfold zonedTime
    split
    · simp only
      omega
    cases hz : zones tzid with
    | some z =>
      have hnear := toUtc_near (hzones tzid z hz) wall
      simp only
      omega
    | none =>
      cases hoffset : inlineOffset calendar tzid with
      | some offset =>
        have hnear := inlineOffset_near hoffset
        simp only
        omega
      | none =>
        simp only
        omega
  unfold parseDateTime
  simp only
  split_ifs
  · simp
  · have hnear := @makeWall_near _ (atoiAt (trim value) 4 2) (atoiAt (trim value) 6 2) 0 0 0 hy
      (by omega) (by omega) (by omega) (by omega) (by omega)
    simp only
    omega
  · simp
  · simp
  · simp
  · have hnear := @makeWall_near _ (atoiAt (trim value) 4 2) (atoiAt (trim value) 6 2) _ _ _ hy
      (by omega) (by omega) hh hmi hs
    simp only
    omega
  · apply hzoned
    exact makeWall_near hy (by omega) (by omega) hh hmi hs

end QuackMail.Ical

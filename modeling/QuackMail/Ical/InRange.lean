import QuackMail.Ical.Expand

/-! # Recurrence in range

An expansion stays within 64 bits iff the dates of its rule do, up to the round in which it ends.
-/

namespace QuackMail.Ical

open Calendar Tz Rounds

namespace Expansion

variable (x : Expansion)

/-! ## What a round looks at -/

/-- The instant of a wall time. -/
def instant (wall : Int) : Int := x.zone.elim wall fun z => (toUtc z wall).utc

/-- Its conversion stays within 64 bits. -/
def Converts (wall : Int) : Prop := ∀ z, x.zone = some z → toUtcFits z wall = true

/-- So does the end of an occurrence, if it is computed. -/
def EmitFits (inst : Int) : Prop :=
  inst ∈ x.item.exdates ∨ x.winTo ≤ inst ∨ (x.duration ≤ 0 ∧ inst < x.winFrom) ∨
    Fits (inst + x.duration)

/-- All that is computed of a date fits. -/
def DateFits (wall : Int) : Prop :=
  Fits wall ∧ x.Converts wall ∧
    (x.pastUntil (x.instant wall) = false → x.EmitFits (x.instant wall))

/-- The occurrence at an instant, if it is in the window. -/
def shown (inst : Int) : List Occurrence :=
  if inst ∈ x.item.exdates ∨ x.winTo ≤ inst ∨
      (if 0 < x.duration then inst + x.duration ≤ x.winFrom else inst < x.winFrom) then []
  else [⟨inst, inst + x.duration, x.item.start.allDay, x.item.uid⟩]

/-- A date of the rule: the seconds up to its midnight (or from the start on), and its wall time;
    or a month that has no such day, by its first second. -/
inductive Look
  | date (seconds wall : Int)
  | skip (first : Int)

/-- The expansion goes on behind it. -/
def Look.goes : Look → Prop
  | .date _ wall => x.pastUntil (x.instant wall) = false ∧ x.instant wall < x.winTo
  | .skip first => first < x.winTo

def Look.fits : Look → Prop
  | .date seconds wall => Fits seconds ∧ x.DateFits wall
  | .skip first => Fits first

/-- The instants of the dates. -/
def Look.instants : Look → List Int
  | .date _ wall => [x.instant wall]
  | .skip _ => []

/-- Behind these instants. -/
def after (insts : List Int) : Progress := ⟨insts.length, insts.flatMap x.shown⟩

/-- The instants before round `n`. -/
def before (look : Nat → Look) (n : Nat) : List Int :=
  (List.range n).flatMap fun m => (look m).instants x

/-- Every round that is reached fits. -/
def RoundsFit (look : Nat → Look) : Prop :=
  ∀ n, (∀ m < n, (look m).goes x) → x.wantMore n (x.after (x.before look n)) = true →
    (look n).fits x

/-- The date of a round of `DAILY`, and of `WEEKLY` without days. -/
def stepLook (start step : Int) (n : Nat) : Look :=
  .date (n * step * 86400) (start + n * step * 86400)

/-- Year and month of a round. -/
def monthAt (y mo : Int) (n : Nat) : Int × Int :=
  if x.rule.freq = bytes "MONTHLY" then
    (y + (mo - 1 + n * x.rule.interval) / 12, (mo - 1 + n * x.rule.interval) % 12 + 1)
  else (y + n * x.rule.interval, mo)

/-- The date of a round of `MONTHLY` or `YEARLY`: the day, at the time of the start. -/
def monthLook (start : Int) (n : Nat) : Look :=
  let civil := civilFromDays (start / 86400)
  let ym := x.monthAt civil.1 civil.2.1 n
  let d := civil.2.2
  if d ≤ daysInMonth ym.1 ym.2 then
    .date (daysFromCivil ym.1 ym.2 d * 86400) (daysFromCivil ym.1 ym.2 d * 86400 + start % 86400)
  else .skip (daysFromCivil ym.1 ym.2 1 * 86400)

/-! ## Weeks -/

/-- The wall time on a day of a week. -/
def weekWall (weekStart dayTime w dow : Int) : Int := (weekStart + w * 7 + dow) * 86400 + dayTime

/-- The Sunday before a time. -/
def sundayOf (start : Int) : Int := start / 86400 - weekdayFromDays (start / 86400)

/-- The wall time on a day of the week of a round. -/
def dayAt (start : Int) (n : Nat) : Int → Int :=
  weekWall (sundayOf start) (start % 86400) (n * x.rule.interval)

/-- The dates of a week, which are not before the start. -/
def weekDates (start : Int) (n : Nat) : List Int :=
  (x.rule.bydays.map (x.dayAt start n)).filter fun wall => start ≤ wall

/-- Those that are looked at behind some instants: none behind one past `UNTIL`, and none when no
    more is wanted. -/
def looked (guard : Nat) : List Int → List Int → List Int
  | _, [] => []
  | insts, wall :: walls =>
    wall ::
      if x.pastUntil (x.instant wall) || !x.wantMore guard (x.after (insts ++ [x.instant wall]))
      then [] else looked guard (insts ++ [x.instant wall]) walls

/-- The expansion goes on behind a week. -/
def WeekGoes (start : Int) (n : Nat) : Prop :=
  (∀ wall ∈ x.weekDates start n, x.pastUntil (x.instant wall) = false) ∧
    (x.weekDates start n ≠ [] → x.instant (x.dayAt start n 0) < x.winTo)

/-- The instants before week `n`. -/
def beforeWeek (start : Int) (n : Nat) : List Int :=
  (List.range n).flatMap fun m => (x.weekDates start m).map x.instant

def WeekFits (start : Int) (n : Nat) : Prop :=
  let walls := x.looked (n + 1) (x.beforeWeek start n) (x.weekDates start n)
  (∀ wall ∈ walls, x.DateFits wall) ∧
    (walls ≠ [] → (∀ wall ∈ walls, x.pastUntil (x.instant wall) = false) →
      x.Converts (x.dayAt start n 0))

/-- Every week that is reached fits. -/
def WeeksFit (start : Int) : Prop :=
  ∀ n, (∀ m < n, x.WeekGoes start m) →
    x.wantMore n (x.after (x.beforeWeek start n)) = true → x.WeekFits start n

/-! ## Expansions -/

/-- The wall time of the start. -/
def startAt : Int := x.zone.elim x.item.start.epoch fun z => fromUtc z x.item.start.epoch

/-- Every date that is looked at fits. -/
def DatesFit : Prop :=
  (∀ z, x.zone = some z → fromUtcFits z x.item.start.epoch = true) ∧
    if x.rule.freq = bytes "DAILY" then x.RoundsFit (stepLook x.startAt x.rule.interval)
    else if x.rule.freq = bytes "WEEKLY" then
      Fits (7 * x.rule.interval) ∧
        if x.rule.bydays = [] then x.RoundsFit (stepLook x.startAt (7 * x.rule.interval))
        else x.WeeksFit x.startAt
    else x.RoundsFit (x.monthLook x.startAt)

section

variable {x}

/-! ## Steps -/

variable {guard : Nat} {p : Progress} {insts : List Int} {dayTime w weekStart : Int}

theorem wantMore_iff : x.wantMore guard p = true ↔
      (p.out.length < 750 ∧ guard < 6000) ∧
        (0 < x.rule.count → (p.emitted : Int) < x.rule.count) := by
  unfold wantMore kMaxOccurrences
  split_ifs <;> simp <;> omega

/-- What is wanted behind more instants is wanted behind fewer. -/
theorem wantMore_of_append {guard' : Nat} (hle : guard ≤ guard') {insts' : List Int}
    (h : x.wantMore guard' (x.after (insts ++ insts')) = true) :
    x.wantMore guard (x.after insts) = true := by
  rw [wantMore_iff] at h ⊢
  simp only [after, List.length_append, List.flatMap_append] at h ⊢
  omega

variable {wall start : Int} {n : Nat}

theorem toInstant_of (h : x.Converts wall) : x.toInstant wall = some (x.instant wall) := by
  unfold toInstant instant
  cases hz : x.zone with
  | none => rfl
  | some z => simp [h z hz]

theorem toInstant_of_not (h : ¬x.Converts wall) : x.toInstant wall = none := by
  unfold toInstant
  cases hz : x.zone with
  | none =>
    exact absurd (fun z hz' => by rw [hz] at hz'; cases hz') h
  | some z =>
    refine if_neg fun hfits => h fun z' hz' => ?_
    rw [hz] at hz'
    rwa [← Option.some.inj hz']

theorem emit_of {out : List Occurrence} {inst : Int} (h : x.EmitFits inst) :
    x.emit out inst = some (out ++ x.shown inst) := by
  unfold emit shown
  by_cases hex : inst ∈ x.item.exdates
  · simp [hex]
  by_cases hto : x.winTo ≤ inst
  · simp [hto]
  by_cases hpos : 0 < x.duration
  · have hfits : Fits (inst + x.duration) := by
      rcases h with h | h | h | h
      · exact absurd h hex
      · exact absurd h hto
      · omega
      · exact h
    rw [if_neg hex, if_neg hto, if_pos hpos, fit_bind hfits]
    by_cases hfrom : inst + x.duration ≤ x.winFrom <;> simp [hex, hto, hpos, hfrom]
  · by_cases hfrom : inst < x.winFrom
    · simp [hpos, hfrom]
    · have hfits : Fits (inst + x.duration) := by
        rcases h with h | h | h | h
        · exact absurd h hex
        · exact absurd h hto
        · exact absurd h.2 hfrom
        · exact h
      rw [if_neg hex, if_neg hto, if_neg hpos, if_neg hfrom, fit_bind hfits]
      simp [hex, hto, hpos, hfrom]

theorem emit_of_not {out : List Occurrence} {inst : Int} (h : ¬x.EmitFits inst) :
    x.emit out inst = none := by
  unfold EmitFits at h
  push Not at h
  obtain ⟨hex, hto, hfrom, hfits⟩ := h
  unfold emit
  rw [if_neg hex, if_neg (Int.not_le.mpr hto), fit_of_not hfits]
  by_cases hpos : 0 < x.duration
  · rw [if_pos hpos]
    rfl
  · rw [if_neg hpos, if_neg (Int.not_lt.mpr (hfrom (by omega)))]
    rfl

theorem after_append (insts : List Int) (inst : Int) : x.after (insts ++ [inst]) =
      ⟨(x.after insts).emitted + 1, (x.after insts).out ++ x.shown inst⟩ := by
  simp [after]

theorem dateTurn_fails (hwall : Fits wall) (h : ¬x.DateFits wall) : x.dateTurn p wall = none := by
  unfold dateTurn
  by_cases hconv : x.Converts wall
  case neg =>
    rw [toInstant_of_not hconv]
    rfl
  have hpast : x.pastUntil (x.instant wall) = false := by
    by_contra hpast
    exact h ⟨hwall, hconv, fun h => absurd h hpast⟩
  have hemit : ¬x.EmitFits (x.instant wall) := fun hemit => h ⟨hwall, hconv, fun _ => hemit⟩
  have hto : ¬x.winTo ≤ x.instant wall := fun hto => hemit (.inr (.inl hto))
  simp [toInstant_of hconv, hpast, hto, emit_of_not hemit]

theorem dateTurn_of (h : x.DateFits wall) : x.dateTurn (x.after insts) wall =
      if x.pastUntil (x.instant wall) = false ∧ x.instant wall < x.winTo then
        some (.next (x.after (insts ++ [x.instant wall])))
      else some (.stop (x.after insts)) := by
  obtain ⟨-, hconv, hemit⟩ := h
  unfold dateTurn
  by_cases hpast : x.pastUntil (x.instant wall) = true
  · simp [toInstant_of hconv, hpast]
  by_cases hto : x.winTo ≤ x.instant wall
  · simp [toInstant_of hconv, hto]
  have hlt := Int.not_le.mp hto
  rw [Bool.not_eq_true] at hpast
  simp [toInstant_of hconv, hpast, hlt, emit_of (hemit hpast), after_append]

/-! ## Rounds with one date -/

/-- A round, by what it looks at. -/
def lookTurn (x : Expansion) (p : Progress) : Look → Option (Turn Progress)
  | .date seconds wall => fit seconds >>= fun _ => fit wall >>= x.dateTurn p
  | .skip first => fit first >>= fun first =>
    if x.winTo ≤ first then some (.stop p) else some (.next p)

theorem before_succ (look : Nat → Look) (n : Nat) :
    x.before look (n + 1) = x.before look n ++ (look n).instants x := by
  simp [before, List.range_succ]

theorem known_rounds {look : Nat → Look} {body : Nat → Progress → Option (Turn Progress)}
    (hbody : ∀ n p, body n p = x.lookTurn p (look n)) :
    Known x.wantMore body (fun n => x.after (x.before look n)) (fun n => (look n).goes x)
      fun n => (look n).fits x where
  earlier n h := by
    rw [before_succ] at h
    exact wantMore_of_append (Nat.le_succ n) h
  fails n _ h := by
    rw [hbody]
    cases hlook : look n with
    | date seconds wall =>
      rw [hlook] at h
      by_cases hseconds : Fits seconds
      case neg => simp [lookTurn, fit_of_not hseconds]
      by_cases hwall : Fits wall
      case neg => simp [lookTurn, fit_of_not hwall]
      rw [lookTurn, fit_bind hseconds, fit_bind hwall]
      exact dateTurn_fails hwall fun hdate => h ⟨hseconds, hdate⟩
    | skip first =>
      rw [hlook] at h
      simp [lookTurn, fit_of_not h]
  stops n _ h hgoes := by
    rw [hbody]
    cases hlook : look n with
    | date seconds wall =>
      rw [hlook] at h hgoes
      have hends : ¬(x.pastUntil (x.instant wall) = false ∧ x.instant wall < x.winTo) := hgoes
      refine ⟨x.after (x.before look n), .inl ?_⟩
      rw [lookTurn, fit_bind h.1, fit_bind h.2.1, dateTurn_of h.2, if_neg hends]
    | skip first =>
      rw [hlook] at h hgoes
      refine ⟨x.after (x.before look n), .inl ?_⟩
      rw [lookTurn, fit_bind h, if_pos (Int.not_lt.mp hgoes)]
  nexts n _ h hgoes := by
    rw [hbody, before_succ]
    cases hlook : look n with
    | date seconds wall =>
      rw [hlook] at h hgoes
      have hon : x.pastUntil (x.instant wall) = false ∧ x.instant wall < x.winTo := hgoes
      refine ⟨_, ?_, .inl rfl⟩
      rw [lookTurn, fit_bind h.1, fit_bind h.2.1, dateTurn_of h.2, if_pos hon]
      rfl
    | skip first =>
      rw [hlook] at h hgoes
      refine ⟨_, ?_, .inl rfl⟩
      rw [lookTurn, fit_bind h, if_neg (Int.not_le.mpr hgoes), Look.instants, List.append_nil]

theorem loop_rounds {look : Nat → Look} {body : Nat → Progress → Option (Turn Progress)}
    (hbody : ∀ n p, body n p = x.lookTurn p (look n)) :
    (loop x.wantMore body (kMaxOccurrences * 8) 0 ⟨0, []⟩).isSome = true ↔ x.RoundsFit look :=
  (known_rounds hbody).loop_isSome_iff fun _ _ h => (wantMore_iff.mp h).1.2

theorem stepTurn_eq (start step : Int) (n : Nat) (p : Progress) :
    x.stepTurn start step n p = x.lookTurn p (stepLook start step n) := by
  rw [stepTurn, stepLook, lookTurn]
  by_cases h : Fits (n * step * 86400)
  · have hsteps : Fits (n * step) := by
      obtain ⟨hlow, hhigh⟩ := h
      exact ⟨by omega, by omega⟩
    rw [fit_bind hsteps, fit_bind h, fit_bind h]
  · by_cases hsteps : Fits (n * step)
    · simp [fit_bind hsteps, fit_of_not h]
    · simp [fit_of_not hsteps, fit_of_not h]

theorem monthOf_sound {start : Clock} {ym : Int × Int} (hmo : 1 ≤ start.mo)
    (hinterval : 1 ≤ x.rule.interval) (h : x.monthOf start n = some ym) :
    ym = x.monthAt start.y start.mo n := by
  have hahead : 0 ≤ n * x.rule.interval := Int.mul_nonneg (Int.natCast_nonneg n) (by omega)
  unfold monthOf at h
  unfold monthAt
  split at h
  · rename_i hmonthly
    simp only [Option.bind_eq_bind, Option.bind_eq_some_iff, fit_eq_some, Option.some.injEq] at h
    obtain ⟨_, ⟨-, rfl⟩, _, ⟨-, rfl⟩, _, ⟨-, rfl⟩, rfl⟩ := h
    rw [if_pos hmonthly, Int.tdiv_eq_ediv_of_nonneg (by omega),
      Int.tmod_eq_emod_of_nonneg (by omega)]
  · rename_i hmonthly
    simp only [Option.bind_eq_bind, Option.bind_eq_some_iff, fit_eq_some, Option.some.injEq] at h
    obtain ⟨_, ⟨-, rfl⟩, _, ⟨-, rfl⟩, rfl⟩ := h
    rw [if_neg hmonthly]

theorem monthOf_complete {start : Clock} {d : Int} (hmo : 1 ≤ start.mo ∧ start.mo ≤ 12)
    (hy : -1000000 ≤ start.y ∧ start.y ≤ 1000000) (hd : 1 ≤ d ∧ d ≤ 31)
    (hinterval : 1 ≤ x.rule.interval)
    (h : Fits (daysFromCivil (x.monthAt start.y start.mo n).1
      (x.monthAt start.y start.mo n).2 d * 86400)) :
    x.monthOf start n = some (x.monthAt start.y start.mo n) := by
  have hahead : 0 ≤ n * x.rule.interval := Int.mul_nonneg (Int.natCast_nonneg n) (by omega)
  generalize hstep : n * x.rule.interval = ahead at hahead
  obtain ⟨hlow, hhigh⟩ := h
  unfold monthOf
  rw [hstep]
  by_cases hmonthly : x.rule.freq = bytes "MONTHLY"
  · have hat : x.monthAt start.y start.mo n =
        (start.y + (start.mo - 1 + ahead) / 12, (start.mo - 1 + ahead) % 12 + 1) := by
      rw [monthAt, if_pos hmonthly, hstep]
    rw [hat] at hlow hhigh ⊢
    dsimp only at hlow hhigh
    have hnear := daysFromCivil_near (start.y + (start.mo - 1 + ahead) / 12)
      (show 1 ≤ (start.mo - 1 + ahead) % 12 + 1 ∧ (start.mo - 1 + ahead) % 12 + 1 ≤ 12 by omega) hd
    rw [fit_bind ⟨by omega, by omega⟩, if_pos hmonthly, fit_bind ⟨by omega, by omega⟩,
      Int.tdiv_eq_ediv_of_nonneg (by omega), Int.tmod_eq_emod_of_nonneg (by omega),
      fit_bind ⟨by omega, by omega⟩]
  · have hat : x.monthAt start.y start.mo n = (start.y + ahead, start.mo) := by
      rw [monthAt, if_neg hmonthly, hstep]
    rw [hat] at hlow hhigh ⊢
    dsimp only at hlow hhigh
    have hnear := daysFromCivil_near (start.y + ahead) hmo hd
    rw [fit_bind ⟨by omega, by omega⟩, if_neg hmonthly, fit_bind ⟨by omega, by omega⟩]

theorem monthAt_month {y mo : Int} (hmo : 1 ≤ mo ∧ mo ≤ 12) (n : Nat) :
    1 ≤ (x.monthAt y mo n).2 ∧ (x.monthAt y mo n).2 ≤ 12 := by
  unfold monthAt
  split
  · omega
  · exact hmo

theorem monthTurn_eq {civil : Clock}
    (hcivil : civilFromDays (start / 86400) = (civil.y, civil.mo, civil.d))
    (hnear : -1000000000000 ≤ start ∧ start ≤ 1000000000000) (hinterval : 1 ≤ x.rule.interval)
    (n : Nat) (p : Progress) :
    x.monthTurn civil (start % 86400) n p = x.lookTurn p (x.monthLook start n) := by
  obtain ⟨hmo, hd, -, hyear⟩ := civilFromDays_spec (start / 86400)
  rw [hcivil] at hmo hd hyear
  have hy : -1000000 ≤ civil.y ∧ civil.y ≤ 1000000 := by omega
  have hmonth := monthAt_month (x := x) (y := civil.y) hmo n
  unfold monthLook
  rw [hcivil]
  dsimp only
  unfold monthTurn
  cases hof : x.monthOf civil n with
  | none =>
    -- the number does not fit either
    have hnot : ∀ d, 1 ≤ d ∧ d ≤ 31 → ¬Fits (daysFromCivil (x.monthAt civil.y civil.mo n).1
        (x.monthAt civil.y civil.mo n).2 d * 86400) := by
      intro d hd' hfits
      rw [monthOf_complete hmo hy hd' hinterval hfits] at hof
      cases hof
    split
    · simp [lookTurn, fit_of_not (hnot _ hd)]
    · simp [lookTurn, fit_of_not (hnot 1 (by decide))]
  | some ym =>
    obtain rfl := monthOf_sound hmo.1 hinterval hof
    generalize x.monthAt civil.y civil.mo n = ym at hmonth ⊢
    show (daysInMonth64 ym.1 ym.2 >>= _) = _
    rw [daysInMonth64, if_pos hmonth]
    show (if daysInMonth ym.1 ym.2 < civil.d then _ else _) = _
    by_cases hlen : civil.d ≤ daysInMonth ym.1 ym.2
    · rw [if_neg (Int.not_lt.mpr hlen), if_pos hlen, midnight_bind hmonth hd, lookTurn]
      split
      · rename_i hfits
        rw [fit_bind hfits]
      · rename_i hfits
        rw [fit_of_not hfits]
        rfl
    · rw [if_pos (Int.not_le.mp hlen), if_neg hlen, midnight_bind hmonth (by decide), lookTurn]
      split
      · rename_i hfits
        rw [fit_bind hfits]
      · rename_i hfits
        rw [fit_of_not hfits]
        rfl

/-! ## Rounds of weeks -/

theorem dayWall_eq {dow : Int} (hstart : -1000000000 ≤ weekStart ∧ weekStart ≤ 1000000000)
    (htime : 0 ≤ dayTime ∧ dayTime < 86400) (hw : 0 ≤ w) (hdow : 0 ≤ dow ∧ dow ≤ 6) :
    dayWall weekStart dayTime w dow = fit (weekWall weekStart dayTime w dow) := by
  by_cases h : Fits (weekWall weekStart dayTime w dow)
  · unfold weekWall at h ⊢
    obtain ⟨hlow, hhigh⟩ := h
    rw [dayWall, fit_bind ⟨by omega, by omega⟩, fit_bind ⟨by omega, by omega⟩,
      fit_bind ⟨by omega, by omega⟩, fit_bind ⟨by omega, by omega⟩]
  · rw [fit_of_not h]
    cases hwall : dayWall weekStart dayTime w dow with
    | none => rfl
    | some wall =>
      simp only [dayWall, Option.bind_eq_bind, Option.bind_eq_some_iff, fit_eq_some] at hwall
      obtain ⟨_, ⟨-, rfl⟩, _, ⟨-, rfl⟩, _, ⟨-, rfl⟩, _, ⟨-, rfl⟩, hfits, -⟩ := hwall
      exact absurd hfits h

theorem weekOver_eq (hstart : -1000000000 ≤ weekStart ∧ weekStart ≤ 1000000000)
    (htime : 0 ≤ dayTime ∧ dayTime < 86400) (hw : 0 ≤ w) (anyFuture : Bool)
    (hfits : anyFuture = true → Fits (weekWall weekStart dayTime w 0)) :
    x.weekOver weekStart dayTime w anyFuture =
      if anyFuture then
        x.toInstant (weekWall weekStart dayTime w 0) >>= fun inst => some (decide (x.winTo ≤ inst))
      else some false := by
  cases anyFuture with
  | false => rfl
  | true =>
    obtain ⟨hlow, hhigh⟩ := hfits rfl
    unfold weekWall at hlow hhigh ⊢
    rw [weekOver, if_pos rfl, if_pos rfl, fit_bind ⟨by omega, by omega⟩,
      fit_bind ⟨by omega, by omega⟩, fit_bind ⟨by omega, by omega⟩, fit_bind ⟨by omega, by omega⟩,
      Int.add_zero]

theorem looked_prefix (guard : Nat) (insts walls : List Int) :
    x.looked guard insts walls <+: walls := by
  induction walls generalizing insts with
  | nil => exact List.nil_prefix
  | cons wall walls ih =>
    rw [looked]
    split
    · exact ⟨walls, rfl⟩
    · exact List.prefix_cons_inj wall |>.mpr (ih _)

theorem looked_eq_nil {walls : List Int} : x.looked guard insts walls = [] ↔ walls = [] := by
  cases walls with
  | nil => simp [looked]
  | cons wall walls => simp [looked]

/-- What the days of a week come to, by the dates that are looked at. -/
structure WeekOf (x : Expansion) (guard : Nat) (insts walls : List Int) (anyFuture : Bool)
    (r : Option Week) : Prop where
  fails : ¬(∀ wall ∈ x.looked guard insts walls, x.DateFits wall) → r = none
  returns : (∀ wall ∈ x.looked guard insts walls, x.DateFits wall) →
    ¬(∀ wall ∈ x.looked guard insts walls, x.pastUntil (x.instant wall) = false) →
      ∃ p, r = some (.returned p)
  done : (∀ wall ∈ x.looked guard insts walls, x.DateFits wall) →
    (∀ wall ∈ x.looked guard insts walls, x.pastUntil (x.instant wall) = false) →
      r = some (.done (anyFuture || decide (walls ≠ []))
        (x.after (insts ++ (x.looked guard insts walls).map x.instant))) ∧
      (x.looked guard insts walls = walls ∨
        x.wantMore guard (x.after (insts ++ (x.looked guard insts walls).map x.instant)) = false)

theorem weekDays_spec (hnear : -1000000000000 ≤ start ∧ start ≤ 1000000000000)
    (hstart : -1000000000 ≤ weekStart ∧ weekStart ≤ 1000000000)
    (htime : 0 ≤ dayTime ∧ dayTime < 86400) (hw : 0 ≤ w) (guard : Nat) {days : List Int}
    (hdays : ∀ dow ∈ days, 0 ≤ dow ∧ dow ≤ 6) (anyFuture : Bool) (insts : List Int) :
    WeekOf x guard insts ((days.map (weekWall weekStart dayTime w)).filter fun wall => start ≤ wall)
      anyFuture (x.weekDays start weekStart dayTime w guard days anyFuture (x.after insts)) := by
  induction days generalizing anyFuture insts with
  | nil => exact ⟨fun h => by simp [looked] at h, fun _ h => by simp [looked] at h,
      fun _ _ => by simp [looked, weekDays]⟩
  | cons dow days ih =>
    have hdow := hdays dow List.mem_cons_self
    have ih' := ih fun dow' h => hdays dow' (List.mem_cons_of_mem dow h)
    rw [weekDays, dayWall_eq hstart htime hw hdow, List.map_cons]
    obtain ⟨wall, hwall⟩ : ∃ wall, weekWall weekStart dayTime w dow = wall := ⟨_, rfl⟩
    rw [hwall]
    by_cases hskip : wall < start
    · -- days before the start fit, and are passed over
      have hfits : Fits wall := by
        unfold weekWall at hwall
        exact ⟨by omega, by omega⟩
      rw [List.filter_cons_of_neg (by simpa using hskip), fit_bind hfits, if_pos hskip]
      exact ih' anyFuture insts
    rw [List.filter_cons_of_pos (by simpa using hskip)]
    generalize (days.map (weekWall weekStart dayTime w)).filter (fun wall => start ≤ wall) = walls
      at ih'
    have hhead : wall ∈ x.looked guard insts (wall :: walls) := by simp [looked]
    by_cases hdate : x.DateFits wall
    case neg =>
      refine ⟨fun _ => ?_, fun h => absurd (h wall hhead) hdate,
        fun h => absurd (h wall hhead) hdate⟩
      by_cases hfits : Fits wall
      case neg => rw [fit_of_not hfits]; rfl
      rw [fit_bind hfits, if_neg hskip]
      by_cases hconv : x.Converts wall
      case neg => rw [toInstant_of_not hconv]; rfl
      have hpast : x.pastUntil (x.instant wall) = false := by
        by_contra hpast
        exact hdate ⟨hfits, hconv, fun h => absurd h hpast⟩
      have hemit : ¬x.EmitFits (x.instant wall) := fun h => hdate ⟨hfits, hconv, fun _ => h⟩
      simp [toInstant_of hconv, hpast, emit_of_not hemit]
    obtain ⟨hfits, hconv, hemit⟩ := hdate
    rw [fit_bind hfits, if_neg hskip, toInstant_of hconv]
    by_cases hpast : x.pastUntil (x.instant wall) = true
    · have hlooked : x.looked guard insts (wall :: walls) = [wall] := by simp [looked, hpast]
      refine ⟨fun h => ?_, fun _ _ => ⟨x.after insts, by simp [hpast]⟩, fun _ h => ?_⟩
      · rw [hlooked] at h
        exact absurd (fun wall' h' => List.mem_singleton.mp h' ▸ ⟨hfits, hconv, hemit⟩) h
      · rw [h wall hhead] at hpast
        cases hpast
    rw [Bool.not_eq_true] at hpast
    by_cases hmore : x.wantMore guard (x.after (insts ++ [x.instant wall])) = true
    · have hlooked : x.looked guard insts (wall :: walls) =
          wall :: x.looked guard (insts ++ [x.instant wall]) walls := by
        simp [looked, hpast, hmore]
      obtain ⟨hfails, hreturns, hdone⟩ := ih' true (insts ++ [x.instant wall])
      rw [after_append] at hmore
      rw [after_append] at hfails hreturns hdone
      simp only [Option.bind_eq_bind, Option.bind_some, hpast, emit_of (hemit hpast),
        Bool.false_eq_true, if_false, hmore, if_true]
      constructor
      · rw [hlooked, List.forall_mem_cons]
        exact fun h => hfails fun hall => h ⟨⟨hfits, hconv, hemit⟩, hall⟩
      · rw [hlooked, List.forall_mem_cons, List.forall_mem_cons]
        exact fun hall h => hreturns hall.2 fun hnone => h ⟨hpast, hnone⟩
      · rw [hlooked, List.forall_mem_cons, List.forall_mem_cons]
        intro hall hnone
        obtain ⟨hresult, hend⟩ := hdone hall.2 hnone.2
        rw [List.map_cons, List.append_cons]
        refine ⟨by simpa using hresult, hend.imp_left fun hall => by rw [hall]⟩
    · have hlooked : x.looked guard insts (wall :: walls) = [wall] := by simp [looked, hmore]
      rw [after_append] at hmore
      simp only [Option.bind_eq_bind, Option.bind_some, hpast, emit_of (hemit hpast),
        Bool.false_eq_true, if_false, hmore]
      constructor
      · rw [hlooked]
        exact fun h => absurd (fun wall' h' => List.mem_singleton.mp h' ▸ ⟨hfits, hconv, hemit⟩) h
      · rw [hlooked]
        exact fun _ h => absurd (fun wall' h' => List.mem_singleton.mp h' ▸ hpast) h
      · intro _ _
        rw [hlooked, List.map_singleton, after_append]
        exact ⟨by simp, .inr (by simpa using hmore)⟩

theorem weekdayFromDays_range (days : Int) :
    0 ≤ weekdayFromDays days ∧ weekdayFromDays days ≤ 6 := by
  have hlow := Int.neg_lt_of_neg_lt (Int.lt_tmod_of_pos (days + 4) (show (0 : Int) < 7 by decide))
  have hhigh := Int.tmod_lt_of_pos (days + 4) (show (0 : Int) < 7 by decide)
  unfold weekdayFromDays
  dsimp only
  split <;> omega

/-- What is known of a rule and of a start. -/
structure Sound (x : Expansion) (start : Int) : Prop where
  near : -1000000000000 ≤ start ∧ start ≤ 1000000000000
  interval : 1 ≤ x.rule.interval ∧ x.rule.interval ≤ 9223372036854775807
  bydays : ∀ dow ∈ x.rule.bydays, 0 ≤ dow ∧ dow ≤ 6

theorem Sound.sunday (h : x.Sound start) :
    -1000000000 ≤ sundayOf start ∧ sundayOf start ≤ 1000000000 := by
  have hweekday := weekdayFromDays_range (start / 86400)
  have hnear := h.near
  unfold sundayOf
  omega

theorem Sound.ahead (h : x.Sound start) (n : Nat) : 0 ≤ n * x.rule.interval :=
  Int.mul_nonneg (Int.natCast_nonneg n) (by have := h.interval; omega)

theorem beforeWeek_succ (start : Int) (n : Nat) :
    x.beforeWeek start (n + 1) = x.beforeWeek start n ++ (x.weekDates start n).map x.instant := by
  simp [beforeWeek, List.range_succ]

theorem Sound.week (h : x.Sound start) (n : Nat) :
    WeekOf x (n + 1) (x.beforeWeek start n) (x.weekDates start n) false
      (x.weekDays start (sundayOf start) (start % 86400) (n * x.rule.interval) (n + 1) x.rule.bydays
        false (x.after (x.beforeWeek start n))) :=
  weekDays_spec h.near h.sunday (by omega) (h.ahead n) (n + 1) h.bydays false _

/-- The week begins before its dates. -/
theorem Sound.sunday_fits (h : x.Sound start)
    (hfit : ∀ wall ∈ x.looked (n + 1) (x.beforeWeek start n) (x.weekDates start n), x.DateFits wall)
    (hne : x.weekDates start n ≠ []) : Fits (x.dayAt start n 0) := by
  obtain ⟨wall, walls, hwalls⟩ := List.exists_cons_of_ne_nil hne
  have hhead : wall ∈ x.looked (n + 1) (x.beforeWeek start n) (x.weekDates start n) := by
    rw [hwalls]
    simp [looked]
  have hmem : wall ∈ x.weekDates start n := by
    rw [hwalls]
    exact List.mem_cons_self
  obtain ⟨dow, hdow, rfl⟩ := List.mem_map.mp (List.mem_filter.mp hmem).1
  obtain ⟨hlow, hhigh⟩ := (hfit _ hhead).1
  have hrange := h.bydays dow hdow
  have hsunday := h.sunday
  have hahead := h.ahead n
  unfold dayAt weekWall at hlow hhigh ⊢
  exact ⟨by omega, by omega⟩

/-- The next week is not too far. -/
theorem Sound.next_fits (h : x.Sound start) (hdays : x.rule.bydays ≠ [])
    (hfit : ∀ wall ∈ x.looked (n + 1) (x.beforeWeek start n) (x.weekDates start n),
      x.DateFits wall) : Fits (n * x.rule.interval + x.rule.interval) := by
  have hinterval := h.interval
  cases n with
  | zero => exact ⟨by omega, by omega⟩
  | succ n =>
    have hle : x.rule.interval ≤ (n + 1 : Nat) * x.rule.interval :=
      le_mul_of_one_le_left (by omega) (by omega)
    have hsunday := h.sunday
    have hweekday := weekdayFromDays_range (start / 86400)
    -- behind the first week no day is before the start
    have hne : x.weekDates start (n + 1) ≠ [] := by
      obtain ⟨dow, days, hbydays⟩ := List.exists_cons_of_ne_nil hdays
      have hdow := h.bydays dow (by rw [hbydays]; exact List.mem_cons_self)
      have hmem : x.dayAt start (n + 1) dow ∈ x.weekDates start (n + 1) := by
        refine List.mem_filter.mpr ⟨List.mem_map_of_mem ?_, ?_⟩
        · rw [hbydays]
          exact List.mem_cons_self
        · unfold dayAt weekWall sundayOf
          simp only [decide_eq_true_eq]
          omega
      exact List.ne_nil_of_mem hmem
    obtain ⟨hlow, hhigh⟩ := h.sunday_fits hfit hne
    unfold dayAt weekWall at hlow hhigh
    exact ⟨by omega, by omega⟩

/-- A week of which no date that is looked at is past `UNTIL`. -/
theorem Sound.weekTurn_of (h : x.Sound start) (hdays : x.rule.bydays ≠ [])
    (hfit : ∀ wall ∈ x.looked (n + 1) (x.beforeWeek start n) (x.weekDates start n),
      x.DateFits wall)
    (hnone : ∀ wall ∈ x.looked (n + 1) (x.beforeWeek start n) (x.weekDates start n),
      x.pastUntil (x.instant wall) = false)
    (hp : p = x.after (x.beforeWeek start n ++
      (x.looked (n + 1) (x.beforeWeek start n) (x.weekDates start n)).map x.instant)) :
    x.weekTurn start (sundayOf start) (start % 86400) n
        (n * x.rule.interval, x.after (x.beforeWeek start n)) =
      (if x.weekDates start n ≠ [] then
        x.toInstant (x.dayAt start n 0) >>= fun inst => some (decide (x.winTo ≤ inst))
      else some false) >>= fun past =>
        if past then some (.stop (n * x.rule.interval, p))
        else some (.next (n * x.rule.interval + x.rule.interval, p)) := by
  obtain ⟨hresult, -⟩ := (h.week n).done hfit hnone
  have hnext := fit_of (h.next_fits hdays hfit)
  have hsunday : decide (x.weekDates start n ≠ []) = true → Fits (x.dayAt start n 0) := fun hne =>
    h.sunday_fits hfit (of_decide_eq_true hne)
  unfold weekTurn
  simp only [hresult, Option.bind_eq_bind, Option.bind_some, Bool.false_or]
  rw [weekOver_eq h.sunday (by omega) (h.ahead n) _ hsunday, hp, hnext]
  simp only [decide_eq_true_eq, Option.bind_some]
  rfl

theorem known_weeks (h : x.Sound start) (hdays : x.rule.bydays ≠ []) :
    Known (fun n s => x.wantMore n s.2) (x.weekTurn start (sundayOf start) (start % 86400))
      (fun n => (n * x.rule.interval, x.after (x.beforeWeek start n))) (x.WeekGoes start)
      (x.WeekFits start) where
  earlier n hmore := by
    rw [beforeWeek_succ] at hmore
    exact wantMore_of_append (Nat.le_succ n) hmore
  fails n _ hnot := by
    by_cases hfit : ∀ wall ∈ x.looked (n + 1) (x.beforeWeek start n) (x.weekDates start n),
      x.DateFits wall
    case neg =>
      unfold weekTurn
      rw [(h.week n).fails hfit]
      rfl
    -- so it is the Sunday that cannot be converted
    unfold WeekFits at hnot
    simp only [not_and, not_forall] at hnot
    obtain ⟨hne, hnone, hconv⟩ := hnot hfit
    rw [ne_eq, looked_eq_nil] at hne
    rw [h.weekTurn_of hdays hfit hnone rfl, if_pos hne, toInstant_of_not hconv]
    rfl
  stops n _ hfits hgoes := by
    obtain ⟨hfit, hconv⟩ := hfits
    by_cases hnone : ∀ wall ∈ x.looked (n + 1) (x.beforeWeek start n) (x.weekDates start n),
      x.pastUntil (x.instant wall) = false
    case neg =>
      obtain ⟨p, hp⟩ := (h.week n).returns hfit hnone
      refine ⟨(n * x.rule.interval, p), .inl ?_⟩
      unfold weekTurn
      rw [hp]
      rfl
    rw [h.weekTurn_of hdays hfit hnone rfl]
    obtain ⟨-, hall | hmore⟩ := (h.week n).done hfit hnone
    · -- all dates have been looked at, so the week is past the window
      rw [hall] at hnone hconv
      have hpast : x.weekDates start n ≠ [] ∧ x.winTo ≤ x.instant (x.dayAt start n 0) := by
        by_contra hnot
        exact hgoes ⟨hnone, fun hne => Int.not_le.mp fun hle => hnot ⟨hne, hle⟩⟩
      rw [if_pos hpast.1, toInstant_of (hconv hpast.1 hnone)]
      exact ⟨_, .inl (by simp [hpast.2]; rfl)⟩
    · by_cases hne : x.weekDates start n = []
      · rw [if_neg (not_not.mpr hne)]
        exact ⟨_, .inr ⟨rfl, hmore⟩⟩
      · rw [if_pos hne, toInstant_of (hconv (mt looked_eq_nil.mp hne) hnone)]
        by_cases hpast : x.winTo ≤ x.instant (x.dayAt start n 0)
        · exact ⟨_, .inl (by simp [hpast]; rfl)⟩
        · exact ⟨_, .inr ⟨by simp [hpast]; rfl, hmore⟩⟩
  nexts n _ hfits hgoes := by
    obtain ⟨hfit, hconv⟩ := hfits
    obtain ⟨hall, hsunday⟩ := hgoes
    have hearlier := looked_prefix (x := x) (n + 1) (x.beforeWeek start n) (x.weekDates start n)
    have hnone : ∀ wall ∈ x.looked (n + 1) (x.beforeWeek start n) (x.weekDates start n),
        x.pastUntil (x.instant wall) = false := fun wall hwall => hall wall (hearlier.subset hwall)
    obtain ⟨-, hend⟩ := (h.week n).done hfit hnone
    refine ⟨(n * x.rule.interval + x.rule.interval, x.after (x.beforeWeek start n ++
      (x.looked (n + 1) (x.beforeWeek start n) (x.weekDates start n)).map x.instant)), ?_, ?_⟩
    · rw [h.weekTurn_of hdays hfit hnone rfl]
      by_cases hne : x.weekDates start n = []
      · rw [if_neg (not_not.mpr hne)]
        rfl
      · have hpast := Int.not_le.mpr (hsunday hne)
        rw [if_pos hne, toInstant_of (hconv (mt looked_eq_nil.mp hne) hnone)]
        simp [hpast]
    · rw [beforeWeek_succ]
      rcases hend with hsame | hmore
      · refine .inl (Prod.ext ?_ (by rw [hsame]))
        rw [Nat.cast_succ, Int.add_mul, Int.one_mul]
      · refine .inr ⟨hmore, ?_⟩
        -- nor is more wanted behind all dates of the week
        obtain ⟨rest, hrest⟩ := hearlier
        by_contra hwant
        rw [Bool.not_eq_false] at hwant
        conv at hwant => rw [← hrest, List.map_append, ← List.append_assoc]
        rw [wantMore_of_append (Nat.le_refl _) hwant] at hmore
        cases hmore

theorem loop_weeks (h : x.Sound start) (hdays : x.rule.bydays ≠ []) :
    (loop (fun n s => x.wantMore n s.2) (x.weekTurn start (sundayOf start) (start % 86400))
      (kMaxOccurrences * 8) 0 (0, ⟨0, []⟩)).isSome = true ↔ x.WeeksFit start := by
  have hzero : ((0 : Int), (⟨0, []⟩ : Progress)) =
      (((0 : Nat) : Int) * x.rule.interval, x.after (x.beforeWeek start 0)) := by
    simp [after, beforeWeek]
  rw [hzero]
  exact (known_weeks h hdays).loop_isSome_iff fun _ _ hwant => (wantMore_iff.mp hwant).1.2

/-! ## Expansions -/

theorem startWall_of (h : ∀ z, x.zone = some z → fromUtcFits z x.item.start.epoch = true) :
    x.startWall = some x.startAt := by
  unfold startWall startAt
  cases hz : x.zone with
  | none => rfl
  | some z => simp [h z hz]

theorem startWall_of_not (h : ¬∀ z, x.zone = some z → fromUtcFits z x.item.start.epoch = true) :
    x.startWall = none := by
  unfold startWall
  cases hz : x.zone with
  | none =>
    exact absurd (fun z hz' => by rw [hz] at hz'; cases hz') h
  | some z =>
    refine if_neg fun hfits => h fun z' hz' => ?_
    rw [hz] at hz'
    rwa [← Option.some.inj hz']

theorem weekday64_eq {days : Int} (h : -1000000000 ≤ days ∧ days ≤ 1000000000) :
    weekdayFromDays64 days = some (weekdayFromDays days) := by
  rw [weekdayFromDays64, fit_of ⟨by omega, by omega⟩]
  rfl

theorem isSome_bind_some {α β : Type} (o : Option α) (f : α → β) :
    (o >>= fun a => some (f a)).isSome = o.isSome := by
  cases o <;> rfl

theorem rounds_isSome_iff (h : x.Sound x.startAt) : x.rounds.isSome = true ↔ x.DatesFit := by
  have hnear := h.near
  have hinterval := h.interval
  unfold rounds DatesFit
  by_cases hutc : ∀ z, x.zone = some z → fromUtcFits z x.item.start.epoch = true
  case neg =>
    rw [startWall_of_not hutc]
    exact iff_of_false (by simp) fun hfits => hutc hfits.1
  rw [startWall_of hutc, and_iff_right hutc]
  generalize x.startAt = start at h hnear
  obtain ⟨h', mi, s, hbreak⟩ := @breakWall64_eq start ⟨by omega, by omega⟩
  obtain ⟨hmo, hd, hdays, -⟩ := civilFromDays_spec (start / 86400)
  have htoday : daysFromCivil64 (civilFromDays (start / 86400)).1
      (civilFromDays (start / 86400)).2.1 (civilFromDays (start / 86400)).2.2 =
      some (start / 86400) := by
    rw [daysFromCivil64_eq_some hmo hd, hdays]
    exact ⟨rfl, ⟨by omega, by omega⟩, by omega, by omega⟩
  have hmidnight : fit (start / 86400 * 86400) = some (start / 86400 * 86400) :=
    fit_of ⟨by omega, by omega⟩
  have hdayTime : start - start / 86400 * 86400 = start % 86400 := by omega
  have htime : fit (start % 86400) = some (start % 86400) := fit_of ⟨by omega, by omega⟩
  simp only [Option.bind_eq_bind, Option.bind_some, hbreak, htoday, hmidnight, hdayTime, htime]
  have hne : bytes "DAILY" ≠ bytes "WEEKLY" := by decide
  have hsteps : ∀ step, (loop x.wantMore (x.stepTurn start step) (kMaxOccurrences * 8) 0
      ⟨0, []⟩).isSome = true ↔ x.RoundsFit (stepLook start step) := fun step =>
    loop_rounds (stepTurn_eq start step)
  by_cases hdaily : x.rule.freq = bytes "DAILY"
  · have hstep : fit ((if x.rule.freq = bytes "DAILY" then 1 else 7) * x.rule.interval) =
        some x.rule.interval := by
      rw [if_pos hdaily, Int.one_mul]
      exact fit_of ⟨by omega, by omega⟩
    have hnot : ¬(x.rule.freq = bytes "WEEKLY" ∧ x.rule.bydays ≠ []) := by
      rw [hdaily]
      exact fun hweekly => hne hweekly.1
    rw [if_pos (.inl hdaily), hstep, Option.bind_some, if_neg hnot, if_pos hdaily, ← hsteps]
    exact iff_of_eq (congrArg (· = true) (isSome_bind_some _ _))
  by_cases hweekly : x.rule.freq = bytes "WEEKLY"
  · rw [if_pos (.inr hweekly), if_neg hdaily, if_neg hdaily, if_pos hweekly]
    by_cases hseven : Fits (7 * x.rule.interval)
    case neg =>
      rw [fit_of_not hseven]
      exact iff_of_false (by simp) fun hfits => hseven hfits.1
    rw [fit_of hseven, Option.bind_some, and_iff_right hseven]
    by_cases hbydays : x.rule.bydays = []
    · have hnot : ¬(x.rule.freq = bytes "WEEKLY" ∧ x.rule.bydays ≠ []) := fun hdays =>
        hdays.2 hbydays
      rw [if_neg hnot, if_pos hbydays, ← hsteps]
      exact iff_of_eq (congrArg (· = true) (isSome_bind_some _ _))
    · have hsunday := h.sunday
      have hbegin : fit (start / 86400 - weekdayFromDays (start / 86400)) = some (sundayOf start) :=
        fit_of ⟨by unfold sundayOf at hsunday; omega, by unfold sundayOf at hsunday; omega⟩
      rw [if_pos ⟨hweekly, hbydays⟩, if_neg hbydays, weekday64_eq ⟨by omega, by omega⟩,
        Option.bind_some, hbegin, Option.bind_some, ← loop_weeks h hbydays]
      exact iff_of_eq (congrArg (· = true) (isSome_bind_some _ _))
  · have hnot : ¬(x.rule.freq = bytes "DAILY" ∨ x.rule.freq = bytes "WEEKLY") := fun hor =>
      hor.elim hdaily hweekly
    rw [if_neg hnot, if_neg hdaily, if_neg hweekly,
      ← loop_rounds (@monthTurn_eq x start ⟨_, _, _, h', mi, s⟩ rfl hnear hinterval.1)]
    exact iff_of_eq (congrArg (· = true) (isSome_bind_some _ _))

end

end Expansion

/-! ## Rules -/

/-- The interval is positive and fits, and the days are days of a week. -/
def Rule.Ranged (r : Rule) : Prop :=
  (1 ≤ r.interval ∧ r.interval ≤ 9223372036854775807) ∧ ∀ dow ∈ r.bydays, 0 ≤ dow ∧ dow ≤ 6

theorem ranged_parseDay {r : Rule × Bool} (h : r.1.Ranged) (one : Bytes) :
    (parseDay r one).1.Ranged := by
  unfold parseDay
  dsimp only
  split
  · exact h
  · refine ⟨h.1, fun dow hdow => ?_⟩
    rcases List.mem_append.mp hdow with hdow | hdow
    · exact h.2 dow hdow
    · obtain ⟨i, hi, rfl⟩ := List.mem_map.mp hdow
      have hlt := List.mem_range.mp (List.mem_filter.mp hi).1
      simp only [Int.ofNat_eq_natCast]
      omega

theorem ranged_foldl {step : Rule × Bool → Bytes → Rule × Bool}
    (hstep : ∀ r one, r.1.Ranged → (step r one).1.Ranged) (ones : List Bytes) {r : Rule × Bool}
    (h : r.1.Ranged) : (ones.foldl step r).1.Ranged := by
  induction ones generalizing r with
  | nil => exact h
  | cons one ones ih => exact ih (hstep r one h)

theorem strtoll_le (s : Bytes) : strtoll s ≤ 9223372036854775807 := by
  unfold strtoll
  split
  · decide
  · split_ifs <;> omega

theorem ranged_parsePart {r : Rule × Bool} (h : r.1.Ranged) (part : Bytes) :
    (parsePart r part).1.Ranged := by
  unfold parsePart
  split
  · exact h
  · dsimp only
    split_ifs
    · exact h
    · rename_i eq _ _ _
      have hle := strtoll_le (trim (part.drop (eq + 1)))
      exact ⟨⟨by dsimp only; omega, by dsimp only; omega⟩, h.2⟩
    · exact h
    · exact h
    · exact h
    · exact ranged_foldl (fun _ one h => ranged_parseDay h one) _ h
    · exact h
    · exact h

theorem parseRule_ranged (rrule : Bytes) : (parseRule rrule).Ranged := by
  have hdefault : ({} : Rule).Ranged := ⟨by decide, fun _ h => by cases h⟩
  unfold parseRule
  split
  · exact hdefault
  · have hfold := @ranged_foldl parsePart (fun _ part h => ranged_parsePart h part)
      (Contentline.splitRaw rrule (ch ';')) ({}, false) hdefault
    exact hfold

/-! ## Items -/

/-- The duration, before it is known to fit. -/
def durationOf (item : Item) : Int :=
  if item.finish.valid then item.finish.epoch - item.start.epoch
  else if item.start.allDay then 86400 else 0

/-- The duration fits, and so do the dates of the rule that are looked at; without a rule, the
    only occurrence. -/
def InRange (zones : Bytes → Option Zone) (item : Item) (winFrom winTo : Int) : Prop :=
  let x := expansion zones item winFrom winTo (durationOf item)
  item.start.valid = true → (item.finish.valid = true → Fits (durationOf item)) ∧
    if item.rrule = [] ∨ x.rule.understood = false then x.EmitFits item.start.epoch
    else x.DatesFit

/-- An expansion computes no value outside of 64 bits, and looks for no month that is none, iff
    the dates of its rule are in range up to the round in which it ends. -/
theorem expand_inRange (zones : Bytes → Option Zone)
    (hzones : ∀ name z, zones name = some z → z.Short) (item : Item) (value : Bytes)
    (params : List (Bytes × Bytes)) (calendar : Option Component)
    (hstart : item.start = parseDateTime zones value params calendar) (winFrom winTo : Int) :
    (expand zones item winFrom winTo).isSome = true ↔ InRange zones item winFrom winTo := by
  unfold expand InRange
  by_cases hvalid : item.start.valid = true
  case neg =>
    simp [hvalid]
  have hduration : item.duration =
      if item.finish.valid = true → Fits (durationOf item) then some (durationOf item)
      else none := by
    unfold Item.duration durationOf
    by_cases hfinish : item.finish.valid = true <;> simp [hfinish, fit]
  rw [if_neg (by simp [hvalid]), hduration, imp_iff_right hvalid]
  by_cases hfits : item.finish.valid = true → Fits (durationOf item)
  case neg =>
    rw [if_neg hfits]
    exact iff_of_false (by simp) fun h => hfits h.1
  rw [if_pos hfits, and_iff_right hfits]
  obtain ⟨x, hx⟩ : ∃ x, expansion zones item winFrom winTo (durationOf item) = x := ⟨_, rfl⟩
  simp only [Option.bind_eq_bind, Option.bind_some, hx]
  have hitem : x.item = item := by rw [← hx]; rfl
  have hrule : x.rule = parseRule item.rrule := by rw [← hx]; rfl
  by_cases hsingle : item.rrule = [] ∨ x.rule.understood = false
  · rw [if_pos hsingle, if_pos hsingle]
    by_cases hemit : x.EmitFits item.start.epoch
    · exact iff_of_true (by simp [Expansion.emit_of hemit]) hemit
    · exact iff_of_false (by simp [Expansion.emit_of_not hemit]) hemit
  rw [if_neg hsingle, if_neg hsingle]
  have hnear := parseDateTime_near hzones value params calendar
  rw [← hstart] at hnear
  have hranged := parseRule_ranged item.rrule
  rw [← hrule] at hranged
  apply Expansion.rounds_isSome_iff
  refine ⟨?_, hranged.1, hranged.2⟩
  unfold Expansion.startAt
  rw [hitem]
  cases hz : x.zone with
  | none =>
    simp only [Option.elim_none]
    omega
  | some z =>
    have hshort : z.Short := by
      rw [← hx] at hz
      unfold expansion at hz
      split at hz
      · cases hz
      · exact hzones _ z hz
    have hutc := fromUtc_near hshort item.start.epoch
    simp only [Option.elim_some]
    omega

/-- A meeting on two days of every other week, three times. -/
def meeting : Item where
  uid := bytes "meeting"
  rrule := bytes "FREQ=WEEKLY;INTERVAL=2;BYDAY=TU,FR;COUNT=3"
  start := parseDateTime (fun _ => none) (bytes "20260317T090000Z") [] none

/-- The zones of a server that knows Africa/Bissau only. -/
def oneZone (name : Bytes) : Option Zone := if name = bissau.name then some bissau else none

theorem short_bissau : bissau.Short := by
  constructor <;> decide +kernel

theorem expand_inRange_meeting :
    let start := parseDateTime oneZone (bytes "20260317T090000")
      [(bytes "TZID", bytes "Africa/Bissau")] none
    InRange oneZone { meeting with start := start } 0 4000000000 := by
  intro start
  have hzones : ∀ name z, oneZone name = some z → z.Short := by
    intro name z hz
    unfold oneZone at hz
    split at hz
    · cases hz
      exact short_bissau
    · cases hz
  exact (expand_inRange oneZone hzones { meeting with start := start } (bytes "20260317T090000")
    [(bytes "TZID", bytes "Africa/Bissau")] none rfl 0 4000000000).mp (by decide +kernel)

/-- The month behind the first is none of the twelve. -/
theorem expand_overflows :
    ¬∀ zones : Bytes → Option Zone, (∀ name z, zones name = some z → z.Short) →
      ∀ (item : Item) (value : Bytes) (params : List (Bytes × Bytes)) (calendar : Option Component),
        item.start = parseDateTime zones value params calendar →
          ∀ winFrom winTo : Int, (expand zones item winFrom winTo).isSome = true := by
  intro h
  have hmonthly := h (fun _ => none) (fun _ _ h => by cases h)
    { meeting with rrule := bytes "FREQ=MONTHLY;INTERVAL=9223372036854775807" }
    (bytes "20260317T090000Z") [] none rfl 0 4000000000
  revert hmonthly
  decide +kernel

end QuackMail.Ical

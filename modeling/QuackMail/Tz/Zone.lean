import QuackMail.Bytes
import QuackMail.Calendar

/-! # Time zones

The tables and the POSIX footers of `tz.cpp`: `ParsePosix`, `RuleInstant`, `ApplyPosix`,
`TypeFromTable` and `Resolve`.  Seconds are whole numbers here, which the source keeps in 64
bits, and a C string ends where its list does.
-/

namespace QuackMail.Tz

open Calendar

/-! ## POSIX footers -/

structure PosixRule where
  valid : Bool := false
  hasDst : Bool := false
  stdAbbr : Bytes := []
  dstAbbr : Bytes := []
  stdOffset : Int := 0
  dstOffset : Int := 0
  startMon : Int := 0
  startWeek : Int := 0
  startDow : Int := 0
  startTime : Int := 7200
  endMon : Int := 0
  endWeek : Int := 0
  endDow : Int := 0
  endTime : Int := 7200
  deriving DecidableEq

/-- `ParseAbbr`: a name in angle brackets, or at least three letters. -/
def parseAbbr : Bytes → Option (Bytes × Bytes)
  | [] => none
  | c :: p =>
    if c = ch '<' then
      match p.dropWhile (· ≠ ch '>') with
      | [] => none
      | _ :: rest =>
        let out := p.takeWhile (· ≠ ch '>')
        if out = [] then none else some (out, rest)
    else
      let out := (c :: p).takeWhile isAlpha
      if 3 ≤ out.length then some (out, (c :: p).dropWhile isAlpha) else none

/-- A run of digits, and what follows it. -/
def parseDigits (p : Bytes) : Int × Bytes := (digitsFrom 0 p, p.dropWhile isDigit)

/-- `ParseOffset`: hours, and perhaps minutes and seconds. -/
def parseOffset (p : Bytes) : Option (Int × Bytes) :=
  let sign : Int := if p.head? = some (ch '-') then -1 else 1
  let p := if p.head? = some (ch '+') ∨ p.head? = some (ch '-') then p.tail else p
  if p.head?.any isDigit = false then none
  else
    let hours := parseDigits p
    match hours.2 with
    | [] => some (sign * (hours.1 * 3600), [])
    | c :: q =>
      if c ≠ ch ':' then some (sign * (hours.1 * 3600), c :: q)
      else
        let minutes := parseDigits q
        match minutes.2 with
        | [] => some (sign * (hours.1 * 3600 + minutes.1 * 60), [])
        | c :: r =>
          if c ≠ ch ':' then some (sign * (hours.1 * 3600 + minutes.1 * 60), c :: r)
          else
            let seconds := parseDigits r
            -- a colon behind the seconds is taken as well
            some (sign * (hours.1 * 3600 + minutes.1 * 60 + seconds.1),
              if seconds.2.head? = some (ch ':') then seconds.2.tail else seconds.2)

/-- The conversion to `int`. -/
def toInt (x : Int) : Int := Int.bmod x 4294967296

/-- `(int)std::strtol(p, &p, 10)`: without a digit the pointer stays. -/
def strtolInt (p : Bytes) : Int × Bytes :=
  let q := p.dropWhile isSpace
  let r := if q.head? = some (ch '+') ∨ q.head? = some (ch '-') then q.tail else q
  (toInt (strtoll p), if r.head?.any isDigit then r.dropWhile isDigit else p)

/-- A change in the form `M<month>.<week>.<day>/<time>`. -/
structure Change where
  mon : Int
  week : Int
  dow : Int
  time : Int

/-- `ParseChange`. -/
def parseChange : Bytes → Option (Change × Bytes)
  | [] => none
  | c :: p =>
    if c ≠ ch 'M' then none
    else
      let mon := strtolInt p
      if mon.2.head? ≠ some (ch '.') then none
      else
        let week := strtolInt mon.2.tail
        if week.2.head? ≠ some (ch '.') then none
        else
          let dow := strtolInt week.2.tail
          let time :=
            if dow.2.head? = some (ch '/') then parseOffset dow.2.tail else some (7200, dow.2)
          match time with
          | none => none
          | some (time, rest) =>
            if 1 ≤ mon.1 ∧ mon.1 ≤ 12 ∧ 1 ≤ week.1 ∧ week.1 ≤ 5 ∧ 0 ≤ dow.1 ∧ dow.1 ≤ 6 then
              some (⟨mon.1, week.1, dow.1, time⟩, rest)
            else none

/-- The offset of daylight time: an hour ahead unless it is given. -/
def parseDstOffset (stdOffset : Int) (p : Bytes) : Option (Int × Bytes) :=
  if p.head? = some (ch '+') ∨ p.head? = some (ch '-') ∨ p.head?.any isDigit = true then
    (parseOffset p).map fun west => (-west.1, west.2)
  else some (stdOffset + 3600, p)

/-- The changes behind the two names, each after a comma. -/
def parseChanges (p : Bytes) : Option (Change × Change) :=
  if p.head? ≠ some (ch ',') then none
  else
    match parseChange p.tail with
    | none => none
    | some (start, q) =>
      if q.head? ≠ some (ch ',') then none
      else (parseChange q.tail).map fun finish => (start, finish.1)

/-- `ParsePosix`: what cannot be read behind the standard time leaves a rule without daylight
    time. -/
def parsePosix (spec : Bytes) : PosixRule :=
  match parseAbbr spec with
  | none => {}
  | some (stdAbbr, p) =>
    match parseOffset p with
    | none => {}
    | some (west, q) =>
      let std : PosixRule := { valid := true, stdAbbr := stdAbbr, stdOffset := -west }
      match parseAbbr q with
      | none => std
      | some (dstAbbr, r) =>
        match parseDstOffset (-west) r with
        | none => std
        | some (dstOffset, r') =>
          match parseChanges r' with
          | none => std
          | some (start, finish) =>
            { valid := true, hasDst := true, stdAbbr := stdAbbr, dstAbbr := dstAbbr
              stdOffset := -west, dstOffset := dstOffset
              startMon := start.mon, startWeek := start.week, startDow := start.dow
              startTime := start.time
              endMon := finish.mon, endWeek := finish.week, endDow := finish.dow
              endTime := finish.time }

/-- The loop that steps back to the last such weekday of the month. -/
def stepBack (day last : Int) : Int :=
  if last < day then stepBack (day - 7) last else day
termination_by (day - last).toNat
decreasing_by omega

/-- `RuleInstant`. -/
def ruleInstant (year mon week dow timeOfDay utcOffset : Int) : Int :=
  let first := daysFromCivil year mon 1
  let delta := (dow - weekdayFromDays first + 7).tmod 7
  let last := daysFromCivil year mon (daysInMonth (toInt year) mon)
  stepBack (first + delta + (week - 1) * 7) last * 86400 + timeOfDay - utcOffset

/-- What `Resolve` answers. -/
structure Resolved where
  offset : Int
  isDst : Bool
  abbr : Bytes

/-- `ApplyPosix`: without a rule, `none`. -/
def applyPosix (r : PosixRule) (utc : Int) : Option Resolved :=
  if r.valid = false then none
  else if r.hasDst = false then some ⟨r.stdOffset, false, r.stdAbbr⟩
  else
    let days := utc.tdiv 86400 - if utc.tmod 86400 < 0 then 1 else 0
    let y := (civilFromDays days).1
    let start := ruleInstant y r.startMon r.startWeek r.startDow r.startTime r.stdOffset
    let finish := ruleInstant y r.endMon r.endWeek r.endDow r.endTime r.dstOffset
    let dst :=
      if start < finish then decide (start ≤ utc ∧ utc < finish)
      else decide (start ≤ utc ∨ utc < finish)
    some (if dst then ⟨r.dstOffset, true, r.dstAbbr⟩ else ⟨r.stdOffset, false, r.stdAbbr⟩)

/-! ## Zones -/

structure ZoneType where
  offset : Int
  isDst : Bool
  abbrIdx : Nat
  deriving Inhabited

/-- A zone: the transitions, each with the index of the type it sets, are in order, and every
    index is one of a type. -/
structure Zone where
  name : Bytes
  transitions : List (Int × Nat)
  types : List ZoneType
  abbrs : Bytes
  posix : Bytes
  firstType : Nat
  sorted : transitions.Pairwise fun a b => a.1 < b.1
  valid : ∀ e ∈ transitions, e.2 < types.length
  validFirst : firstType < types.length

/-- `AbbrevOf`. -/
def abbrevOf (z : Zone) (t : ZoneType) : Bytes := (z.abbrs.drop t.abbrIdx).takeWhile (· ≠ 0)

/-- The search for the rightmost transition up to `utc`: the place behind it. -/
def rightmost (ts : List (Int × Nat)) (utc : Int) (lo hi : Nat) : Nat :=
  if lo < hi then
    let mid := lo + (hi - lo) / 2
    if (ts[mid]?).any (fun e => e.1 ≤ utc) then rightmost ts utc (mid + 1) hi
    else rightmost ts utc lo mid
  else lo
termination_by hi - lo

/-- `TypeFromTable`: the type, and whether the footer takes over. -/
def typeFromTable (z : Zone) (utc : Int) : ZoneType × Bool :=
  match z.transitions.head? with
  | none => (z.types.getD z.firstType default, decide (z.posix ≠ []))
  | some first =>
    if utc < first.1 then (z.types.getD z.firstType default, false)
    else
      let pastEnd := z.transitions.getLast?.any (fun e => e.1 ≤ utc) && decide (z.posix ≠ [])
      let lo := rightmost z.transitions utc 0 z.transitions.length
      let index := (z.transitions[lo - 1]?).elim 0 Prod.snd
      (z.types.getD index default, pastEnd)

/-- `Resolve`. -/
def resolve (z : Zone) (utc : Int) : Resolved :=
  let found := typeFromTable z utc
  let ruled := if found.2 then applyPosix (parsePosix z.posix) utc else none
  ruled.getD ⟨found.1.offset, found.1.isDst, abbrevOf z found.1⟩

/-! ## The offset in force -/

/-- The type that the last transition up to `utc` sets. -/
def Zone.inForce (z : Zone) (utc : Int) : ZoneType :=
  let last := (z.transitions.filter fun e => e.1 ≤ utc).getLast?
  z.types.getD (last.elim z.firstType Prod.snd) default

/-- The offset of the zone: from the last transition on it is that of the footer, if there is a
    footer that can be read, and otherwise that of the type in force. -/
def Zone.offset (z : Zone) (utc : Int) : Int :=
  let ruled :=
    if z.posix ≠ [] ∧ ∀ e ∈ z.transitions, e.1 ≤ utc then applyPosix (parsePosix z.posix) utc
    else none
  ruled.elim (z.inForce utc).offset Resolved.offset

/-- The search stops behind the last transition up to `utc`. -/
theorem rightmost_spec {ts : List (Int × Nat)} {utc : Int}
    (hsorted : ts.Pairwise fun a b => a.1 < b.1) (lo hi : Nat) (hhi : hi ≤ ts.length)
    (hlohi : lo ≤ hi) (hlo : ∀ i (h : i < ts.length), i < lo → ts[i].1 ≤ utc)
    (hgt : ∀ i (h : i < ts.length), hi ≤ i → utc < ts[i].1) :
    ∀ i (h : i < ts.length), ts[i].1 ≤ utc ↔ i < rightmost ts utc lo hi := by
  fun_induction rightmost ts utc lo hi with
  | case1 lo hi hlt mid hmid ih =>
    have hbound : mid < ts.length := by omega
    rw [List.getElem?_eq_getElem hbound, Option.any_some, decide_eq_true_eq] at hmid
    apply ih hhi (by omega) _ hgt
    -- the transitions before the middle one are earlier still
    intro i hi' hlt'
    by_cases heq : i = mid
    · subst heq
      exact hmid
    · have hearlier := List.pairwise_iff_getElem.mp hsorted i mid hi' hbound (by omega)
      omega
  | case2 lo hi hlt mid hmid ih =>
    have hbound : mid < ts.length := by omega
    rw [List.getElem?_eq_getElem hbound, Option.any_some, decide_eq_true_eq] at hmid
    apply ih (by omega) (by omega) hlo
    intro i hi' hge
    by_cases heq : i = mid
    · subst heq
      omega
    · have hlater := List.pairwise_iff_getElem.mp hsorted mid i hbound hi' (by omega)
      omega
  | case3 lo hi hge =>
    intro i hi'
    constructor
    · intro hle
      by_contra hnot
      have hlater := hgt i hi' (by omega)
      omega
    · exact hlo i hi'

theorem rightmost_le (ts : List (Int × Nat)) (utc : Int) (lo hi : Nat) (hlohi : lo ≤ hi) :
    rightmost ts utc lo hi ≤ hi := by
  fun_induction rightmost ts utc lo hi with
  | case1 lo hi hlt mid hmid ih =>
    exact ih (by omega)
  | case2 lo hi hlt mid hmid ih =>
    omega
  | case3 lo hi hge => exact hlohi

/-- The transitions are all up to `utc` when the last one is. -/
theorem getLast_le_iff {ts : List (Int × Nat)} (hsorted : ts.Pairwise fun a b => a.1 < b.1)
    (hne : ts ≠ []) (utc : Int) :
    ts.getLast?.any (fun e => e.1 ≤ utc) = true ↔ ∀ e ∈ ts, e.1 ≤ utc := by
  obtain ⟨before, last, rfl⟩ := (List.eq_nil_or_concat ts).resolve_left hne
  rw [List.concat_eq_append] at hsorted ⊢
  rw [List.getLast?_append_cons, List.getLast?_singleton, Option.any_some, decide_eq_true_eq]
  constructor
  · intro hlast e he
    rcases List.mem_append.mp he with he | he
    · have hearlier := (List.pairwise_append.mp hsorted).2.2 e he last List.mem_cons_self
      omega
    · rwa [List.mem_singleton.mp he]
  · exact fun hall => hall last (by simp)

/-- A predicate that holds up to a place and not behind it filters out what is before it. -/
theorem filter_eq_take {α : Type*} {p : α → Bool} {n : Nat} {xs : List α}
    (h : ∀ i (hi : i < xs.length), p xs[i] = true ↔ i < n) : xs.filter p = xs.take n := by
  induction xs generalizing n with
  | nil => simp
  | cons x xs ih =>
    have hfirst := h 0 (by simp)
    have hrest : ∀ m, (∀ i, i + 1 < n ↔ i < m) → xs.filter p = xs.take m := by
      intro m hm
      apply ih
      intro i hi
      have hnext := h (i + 1) (by simpa using hi)
      rw [List.getElem_cons_succ] at hnext
      rw [hnext, hm i]
    cases n with
    | zero =>
      have hx : p x = false := by simpa using hfirst
      rw [List.filter_cons_of_neg (by simp [hx]), hrest 0 (by omega)]
      simp
    | succ n =>
      have hx : p x = true := by simpa using hfirst
      rw [List.filter_cons_of_pos hx, hrest n (by omega), List.take_succ_cons]

theorem filter_rightmost (z : Zone) (utc : Int) :
    (z.transitions.filter fun e => e.1 ≤ utc) =
      z.transitions.take (rightmost z.transitions utc 0 z.transitions.length) := by
  apply filter_eq_take
  intro i hi
  rw [decide_eq_true_eq]
  exact rightmost_spec z.sorted 0 z.transitions.length (Nat.le_refl _) (Nat.zero_le _)
    (fun i _ h => absurd h (Nat.not_lt_zero i)) (fun i h h' => absurd h (by omega)) i hi

/-- The table answers with the type in force, and hands over to the footer from the last
    transition on. -/
theorem typeFromTable_eq (z : Zone) (utc : Int) :
    typeFromTable z utc =
      (z.inForce utc, decide (z.posix ≠ [] ∧ ∀ e ∈ z.transitions, e.1 ≤ utc)) := by
  have hsorted := z.sorted
  have hfilter := filter_rightmost z utc
  unfold typeFromTable Zone.inForce
  cases hts : z.transitions with
  | nil => simp
  | cons first rest =>
    rw [hts] at hfilter hsorted
    simp only [List.head?_cons]
    by_cases hbefore : utc < first.1
    · -- no transition is up to `utc`
      have hnone : (first :: rest).filter (fun e => e.1 ≤ utc) = [] := by
        rw [List.filter_eq_nil_iff]
        intro e he
        rcases List.mem_cons.mp he with rfl | he
        · simp [hbefore]
        · have hlater := (List.pairwise_cons.mp hsorted).1 e he
          simp only [decide_eq_true_eq]
          omega
      have hlater : ¬∀ e ∈ first :: rest, e.1 ≤ utc := by
        intro hall
        have hfirst := hall first List.mem_cons_self
        omega
      rw [if_pos hbefore, hnone, decide_eq_false fun h => hlater h.2]
      rfl
    · rw [if_neg hbefore, hfilter]
      have hpos : 0 < rightmost (first :: rest) utc 0 (first :: rest).length := by
        by_contra hzero
        rw [Nat.eq_zero_of_not_pos hzero, List.take_zero, List.filter_eq_nil_iff] at hfilter
        have hfirst := hfilter first List.mem_cons_self
        simp only [decide_eq_true_eq] at hfirst
        omega
      have hle := rightmost_le (first :: rest) utc 0 (first :: rest).length (Nat.zero_le _)
      have hlast := getLast_le_iff hsorted (List.cons_ne_nil first rest) utc
      rw [List.getLast?_take, if_neg (by omega), List.getElem?_eq_getElem (by omega)]
      refine Prod.ext rfl ?_
      rw [Bool.eq_iff_iff, Bool.and_eq_true, hlast, decide_eq_true_eq, decide_eq_true_eq, and_comm]

theorem resolve_offset (z : Zone) (utc : Int) : (resolve z utc).offset = z.offset utc := by
  unfold resolve Zone.offset
  rw [typeFromTable_eq]
  simp only [decide_eq_true_eq]
  split
  · cases applyPosix (parsePosix z.posix) utc with
    | none => rfl
    | some r => rfl
  · rfl

end QuackMail.Tz

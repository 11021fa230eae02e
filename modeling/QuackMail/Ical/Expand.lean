import QuackMail.Ical.Instants
import QuackMail.Lib.Rounds

/-! # Recurrence

`ParseRule` and `Expand` of `ical.cpp`.  As in the calendar, nothing comes of an expansion that
computes a value outside of 64 bits, or looks for a month that is none.
-/

namespace QuackMail.Ical

open Calendar Tz Rounds
open Contentline (splitRaw)

def kMaxOccurrences : Nat := 750

/-! ## Rules -/

structure Rule where
  freq : Bytes := []
  interval : Int := 1
  /-- 0 is unlimited. -/
  count : Int := 0
  untilEpoch : Int := 0
  untilSet : Bool := false
  /-- 0 is Sunday. -/
  bydays : List Int := []
  understood : Bool := false

/-- `kNames`. -/
def kNames : List Bytes := ["SU", "MO", "TU", "WE", "TH", "FR", "SA"].map bytes

/-- One day of a `BYDAY`; an ordinal is not known. -/
def parseDay (r : Rule × Bool) (one : Bytes) : Rule × Bool :=
  let d := upper (trim one)
  if 2 < d.length then (r.1, true)
  else
    ({ r.1 with bydays := r.1.bydays ++
        ((List.range 7).filter fun i => kNames[i]? = some d).map Int.ofNat }, r.2)

/-- One part of a rule, and whether there was a part that is not known. -/
def parsePart (r : Rule × Bool) (part : Bytes) : Rule × Bool :=
  match findChar (ch '=') part with
  | none => r
  | some eq =>
    let k := upper (trim (part.take eq))
    let v := trim (part.drop (eq + 1))
    if k = bytes "FREQ" then ({ r.1 with freq := upper v }, r.2)
    else if k = bytes "INTERVAL" then ({ r.1 with interval := max 1 (strtoll v) }, r.2)
    else if k = bytes "COUNT" then ({ r.1 with count := strtoll v }, r.2)
    else if k = bytes "UNTIL" then
      let dt := parseDateTime (fun _ => none) v [] none
      if dt.valid then ({ r.1 with untilEpoch := dt.epoch, untilSet := true }, r.2) else r
    else if k = bytes "BYDAY" then (splitRaw v (ch ',')).foldl parseDay r
    else if k = bytes "WKST" then r
    else (r.1, true)

/-- `ParseRule`. -/
def parseRule (rrule : Bytes) : Rule :=
  if rrule = [] then {}
  else
    let r := (splitRaw rrule (ch ';')).foldl parsePart ({}, false)
    { r.1 with
      understood := !r.2 && (r.1.freq = bytes "DAILY" || r.1.freq = bytes "WEEKLY" ||
        r.1.freq = bytes "MONTHLY" || r.1.freq = bytes "YEARLY") }

/-! ## Items -/

/-- What `Expand` reads of an item. -/
structure Item where
  uid : Bytes := []
  rrule : Bytes := []
  exdates : List Int := []
  start : DateTime := {}
  finish : DateTime := {}

structure Occurrence where
  start : Int
  finish : Int
  allDay : Bool
  uid : Bytes

/-- What the loops of `Expand` read: the zone is the one `to_instant` and `FromUtc` find. -/
structure Expansion where
  item : Item
  zone : Option Zone
  winFrom : Int
  winTo : Int
  duration : Int
  rule : Rule

/-- What the loops write. -/
structure Progress where
  emitted : Nat
  out : List Occurrence

namespace Expansion

variable (x : Expansion)

/-- `emit`. -/
def emit (out : List Occurrence) (inst : Int) : Option (List Occurrence) :=
  if inst ∈ x.item.exdates then some out
  else if x.winTo ≤ inst then some out
  else if 0 < x.duration then do
    let finish ← fit (inst + x.duration)
    if finish ≤ x.winFrom then some out
    else some (out ++ [⟨inst, finish, x.item.start.allDay, x.item.uid⟩])
  else if inst < x.winFrom then some out
  else do
    let finish ← fit (inst + x.duration)
    some (out ++ [⟨inst, finish, x.item.start.allDay, x.item.uid⟩])

/-- `to_instant`. -/
def toInstant (wall : Int) : Option Int :=
  match x.zone with
  | none => some wall
  | some z => if toUtcFits z wall then some (toUtc z wall).utc else none

/-- `start_wall`. -/
def startWall : Option Int :=
  match x.zone with
  | none => some x.item.start.epoch
  | some z =>
    if fromUtcFits z x.item.start.epoch then some (fromUtc z x.item.start.epoch) else none

/-- `want_more`; there have been `guard` rounds. -/
def wantMore (guard : Nat) (p : Progress) : Bool :=
  if kMaxOccurrences ≤ p.out.length ∨ kMaxOccurrences * 8 ≤ guard then false
  else if 0 < x.rule.count ∧ x.rule.count ≤ p.emitted then false
  else true

/-- Is this past `UNTIL`? -/
def pastUntil (inst : Int) : Bool := x.rule.untilSet && decide (x.rule.untilEpoch < inst)

/-! ## The loops -/

/-- The end of a round with one date. -/
def dateTurn (p : Progress) (wall : Int) : Option (Turn Progress) := do
  let inst ← x.toInstant wall
  if x.pastUntil inst then some (.stop p)
  else if x.winTo ≤ inst then some (.stop p)
  else
    let out ← x.emit p.out inst
    some (.next ⟨p.emitted + 1, out⟩)

/-- A round of `DAILY`, and of `WEEKLY` without days. -/
def stepTurn (start step : Int) (n : Nat) (p : Progress) : Option (Turn Progress) := do
  let steps ← fit (n * step)
  let seconds ← fit (steps * 86400)
  let wall ← fit (start + seconds)
  x.dateTurn p wall

/-- The month of a round of `MONTHLY` or `YEARLY`. -/
def monthOf (start : Clock) (n : Nat) : Option (Int × Int) := do
  let ahead ← fit (n * x.rule.interval)
  if x.rule.freq = bytes "MONTHLY" then
    let total ← fit (start.mo - 1 + ahead)
    let y ← fit (start.y + total.tdiv 12)
    some (y, total.tmod 12 + 1)
  else
    let y ← fit (start.y + ahead)
    some (y, start.mo)

/-- A round of `MONTHLY` or `YEARLY`: a month may be too short for the day. -/
def monthTurn (start : Clock) (dayTime : Int) (n : Nat) (p : Progress) :
    Option (Turn Progress) := do
  let ym ← x.monthOf start n
  let len ← daysInMonth64 ym.1 ym.2
  if len < start.d then
    let days ← daysFromCivil64 ym.1 ym.2 1
    let first ← fit (days * 86400)
    if x.winTo ≤ first then some (.stop p) else some (.next p)
  else
    let days ← daysFromCivil64 ym.1 ym.2 start.d
    let seconds ← fit (days * 86400)
    let wall ← fit (seconds + dayTime)
    x.dateTurn p wall

/-- How the days of a week end: with the end of the expansion, or at `break` or the last of them,
    with `any_future`. -/
inductive Week
  | returned (p : Progress)
  | done (anyFuture : Bool) (p : Progress)

/-- The wall clock on a day of a week. -/
def dayWall (weekStart dayTime w dow : Int) : Option Int := do
  let ahead ← fit (w * 7)
  let week ← fit (weekStart + ahead)
  let day ← fit (week + dow)
  let seconds ← fit (day * 86400)
  fit (seconds + dayTime)

/-- The days of a week, in the order of the rule. -/
def weekDays (start weekStart dayTime w : Int) (guard : Nat) :
    List Int → Bool → Progress → Option Week
  | [], anyFuture, p => some (.done anyFuture p)
  | dow :: days, anyFuture, p => do
    let wall ← dayWall weekStart dayTime w dow
    if wall < start then weekDays start weekStart dayTime w guard days anyFuture p
    else
      let inst ← x.toInstant wall
      if x.pastUntil inst then some (.returned p)
      else
        let out ← x.emit p.out inst
        if x.wantMore guard ⟨p.emitted + 1, out⟩ then
          weekDays start weekStart dayTime w guard days true ⟨p.emitted + 1, out⟩
        else some (.done true ⟨p.emitted + 1, out⟩)

/-- Is the beginning of the week past the window? -/
def weekOver (weekStart dayTime w : Int) (anyFuture : Bool) : Option Bool :=
  if anyFuture then do
    let ahead ← fit (w * 7)
    let week ← fit (weekStart + ahead)
    let seconds ← fit (week * 86400)
    let wall ← fit (seconds + dayTime)
    let inst ← x.toInstant wall
    some (decide (x.winTo ≤ inst))
  else some false

/-- A round of `WEEKLY` with days; `w` is carried along. -/
def weekTurn (start weekStart dayTime : Int) (n : Nat) (s : Int × Progress) :
    Option (Turn (Int × Progress)) := do
  match ← x.weekDays start weekStart dayTime s.1 (n + 1) x.rule.bydays false s.2 with
  | .returned p => some (.stop (s.1, p))
  | .done anyFuture p =>
    let over' ← x.weekOver weekStart dayTime s.1 anyFuture
    if over' then some (.stop (s.1, p))
    else
      let w ← fit (s.1 + x.rule.interval)
      some (.next (w, p))

/-- The rounds of a rule that is understood. -/
def rounds : Option (List Occurrence) := do
  let start ← x.startWall
  let civil ← breakWall64 start
  if x.rule.freq = bytes "DAILY" ∨ x.rule.freq = bytes "WEEKLY" then
    let step ← fit ((if x.rule.freq = bytes "DAILY" then 1 else 7) * x.rule.interval)
    if x.rule.freq = bytes "WEEKLY" ∧ x.rule.bydays ≠ [] then
      let today ← daysFromCivil64 civil.y civil.mo civil.d
      let weekday ← weekdayFromDays64 today
      let weekStart ← fit (today - weekday)
      let midnight ← fit (today * 86400)
      let dayTime ← fit (start - midnight)
      let done ← loop (fun n s => x.wantMore n s.2) (x.weekTurn start weekStart dayTime)
        (kMaxOccurrences * 8) 0 (0, ⟨0, []⟩)
      some done.2.out
    else
      let done ← loop x.wantMore (x.stepTurn start step) (kMaxOccurrences * 8) 0 ⟨0, []⟩
      some done.out
  else
    let today ← daysFromCivil64 civil.y civil.mo civil.d
    let midnight ← fit (today * 86400)
    let dayTime ← fit (start - midnight)
    let done ← loop x.wantMore (x.monthTurn civil dayTime) (kMaxOccurrences * 8) 0 ⟨0, []⟩
    some done.out

end Expansion

/-- `duration`. -/
def Item.duration (item : Item) : Option Int :=
  if item.finish.valid then fit (item.finish.epoch - item.start.epoch)
  else some (if item.start.allDay then 86400 else 0)

/-- What the loops read, of an item with this duration. -/
def expansion (zones : Bytes → Option Zone) (item : Item) (winFrom winTo duration : Int) :
    Expansion where
  item := item
  zone := if item.start.tzid = [] ∨ item.start.allDay = true then none else zones item.start.tzid
  winFrom := winFrom
  winTo := winTo
  duration := duration
  rule := parseRule item.rrule

/-- `Expand`. -/
def expand (zones : Bytes → Option Zone) (item : Item) (winFrom winTo : Int) :
    Option (List Occurrence) :=
  if item.start.valid = false then some []
  else do
    let duration ← item.duration
    let x := expansion zones item winFrom winTo duration
    if item.rrule = [] ∨ x.rule.understood = false then x.emit [] item.start.epoch
    else x.rounds

end QuackMail.Ical

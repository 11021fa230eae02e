import Mathlib.Algebra.Order.Group.Int
import QuackMail.Tz.ToUtc

/-! # Local time in 64 bits

A value that does not fit an `int64_t` is an overflow, and nothing comes of it.  `ToUtc` probes a
day on either side of the local time, so it has no answer for the first and the last day of the
range.
-/

namespace QuackMail.Tz

open Calendar LocalTime

/-! ## 64 bits -/

def Fits (x : Int) : Prop := -9223372036854775808 ≤ x ∧ x ≤ 9223372036854775807

instance (x : Int) : Decidable (Fits x) := inferInstanceAs (Decidable (_ ∧ _))

def fit (x : Int) : Option Int := if Fits x then some x else none

variable {x y : Int}

theorem fit_of (h : Fits x) : fit x = some x := if_pos h

theorem fit_bind {β : Type} (h : Fits x) (k : Int → Option β) :
    (fit x >>= k) = k x := by rw [fit_of h]; rfl

theorem fit_of_not (h : ¬Fits x) : fit x = none := if_neg h

theorem fit_eq_some : fit x = some y ↔ Fits x ∧ y = x := by
  unfold fit
  split <;> simp_all [eq_comm]

/-! ## Zones in 64 bits -/

/-- Do the values of `RuleInstant` fit? -/
def ruleInstantFits (year mon week dow timeOfDay utcOffset : Int) : Bool :=
  let found := ruleInstant year mon week dow timeOfDay utcOffset
  decide (Fits (found + utcOffset - timeOfDay)) && decide (Fits (found + utcOffset)) &&
    decide (Fits found)

/-- Do those of `ApplyPosix`? -/
def applyPosixFits (r : PosixRule) (utc : Int) : Bool :=
  if r.valid && r.hasDst then
    let y := (civilFromDays (utc.tdiv 86400 - if utc.tmod 86400 < 0 then 1 else 0)).1
    ruleInstantFits y r.startMon r.startWeek r.startDow r.startTime r.stdOffset &&
      ruleInstantFits y r.endMon r.endWeek r.endDow r.endTime r.dstOffset
  else true

/-- Do those of `Resolve`? -/
def resolveFits (z : Zone) (utc : Int) : Bool :=
  decide (Fits utc) && if (typeFromTable z utc).2 then applyPosixFits (parsePosix z.posix) utc
    else true

/-- Do those of `FromUtc`? -/
def fromUtcFits (z : Zone) (utc : Int) : Bool := resolveFits z utc && decide (Fits (fromUtc z utc))

/-- Do those of `ToUtc`? -/
def toUtcFits (z : Zone) (wall : Int) : Bool :=
  resolveFits z (wall - 86400) && resolveFits z (wall + 86400) &&
    resolveFits z (wall - (resolve z (wall - 86400)).offset) &&
    resolveFits z (wall - (resolve z (wall + 86400)).offset)

/-- `Resolve`. -/
def resolve64 (z : Zone) (utc : Int) : Option Resolved :=
  if resolveFits z utc then some (resolve z utc) else none

/-- `FromUtc`. -/
def fromUtc64 (z : Zone) (utc : Int) : Option Int := do
  let found ← resolve64 z utc
  fit (utc + found.offset)

/-- `ToUtc`. -/
def toUtc64 (z : Zone) (localWall : Int) : Option UtcOf := do
  let before ← (fit (localWall - 86400)).bind (resolve64 z)
  let after ← (fit (localWall + 86400)).bind (resolve64 z)
  let c1 := localWall - before.offset
  let c2 := localWall - after.offset
  let at1 ← (fit c1).bind (resolve64 z)
  let at2 ← (fit c2).bind (resolve64 z)
  let ok1 := at1.offset = before.offset
  let ok2 := at2.offset = after.offset
  if before.offset = after.offset then some ⟨c1, false, false⟩
  else if ok1 ∧ ok2 ∧ c1 ≠ c2 then some ⟨min c1 c2, true, false⟩
  else if ok1 then some ⟨c1, false, false⟩
  else if ok2 then some ⟨c2, false, false⟩
  else (fit (localWall - min before.offset after.offset)).map fun utc => ⟨utc, false, true⟩

theorem resolveFits_fits {z : Zone} {u : Int} (h : resolveFits z u = true) : Fits u := by
  rw [resolveFits, Bool.and_eq_true, decide_eq_true_eq] at h
  exact h.1

theorem fit_bind_resolve64 (z : Zone) (u : Int) :
    (fit u).bind (resolve64 z) = resolve64 z u := by
  by_cases hu : Fits u
  · rw [fit_of hu, Option.bind_some]
  · have hnot : ¬resolveFits z u = true := fun h => hu (resolveFits_fits h)
    rw [fit_of_not hu, Option.bind_none, resolve64, if_neg hnot]

/-- Where nothing overflows, the answer is that of whole numbers. -/
theorem toUtc64_eq (z : Zone) (w : Int) :
    toUtc64 z w = if toUtcFits z w = true then some (toUtc z w) else none := by
  unfold toUtc64 toUtcFits toUtc
  simp only [Option.bind_eq_bind, fit_bind_resolve64]
  by_cases hearly : resolveFits z (w - 86400) = true
  · by_cases hlate : resolveFits z (w + 86400) = true
    · by_cases h1 : resolveFits z (w - (resolve z (w - 86400)).offset) = true
      · by_cases h2 : resolveFits z (w - (resolve z (w + 86400)).offset) = true
        · have hmin :
              Fits (w - min (resolve z (w - 86400)).offset (resolve z (w + 86400)).offset) := by
            rcases min_choice (resolve z (w - 86400)).offset (resolve z (w + 86400)).offset with
              h | h
            · exact h.symm ▸ resolveFits_fits h1
            · exact h.symm ▸ resolveFits_fits h2
          simp only [resolve64, hearly, hlate, h1, h2, if_true, Option.bind_some, fit_of hmin,
            Option.map_some, Bool.and_self]
          split_ifs <;> rfl
        · simp [resolve64, hearly, hlate, h1, h2]
      · simp [resolve64, hearly, hlate, h1]
    · simp [resolve64, hearly, hlate]
  · simp [resolve64, hearly]

/-- The answer is the first instant at which the clock shows `w`, and whether there are two; or
    the clock never shows it, and the answer is by the offset before the gap. -/
structure Inverts (z : Zone) (w : Int) (r : UtcOf) : Prop where
  shown : (∃ u, u + z.offset u = w) →
    IsLeast {u | u + z.offset u = w} r.utc ∧ r.nonexistent = false ∧
      (r.ambiguous = true ↔ {u | u + z.offset u = w}.ncard = 2) ∧ fromUtc64 z r.utc = some w
  skipped : (¬∃ u, u + z.offset u = w) →
    r.nonexistent = true ∧ r.ambiguous = false ∧
      ∃ t, z.offset (t - 1) ≠ z.offset t ∧ t + z.offset (t - 1) ≤ w ∧ w < t + z.offset t ∧
        r.utc = w - z.offset (t - 1)

/-- `ToUtc` has an answer, and it is the right one. -/
def Resolves (z : Zone) (w : Int) : Prop := ∃ r, toUtc64 z w = some r ∧ Inverts z w r

/-- Where the footer is in force, the changes of the year fit. -/
def Zone.RuleFits (z : Zone) (u : Int) : Prop :=
  z.posix ≠ [] → (∀ e ∈ z.transitions, e.1 ≤ u) → applyPosixFits (parsePosix z.posix) u = true

/-- The local time is a day from the ends of the range, and the changes of the years it may lie
    in fit. -/
structure InReach (z : Zone) (w : Int) : Prop where
  early : Fits (w - 86400)
  late : Fits (w + 86400)
  rules : ∀ u ∈ [w - 86400, w + 86400, w - z.offset (w - 86400), w - z.offset (w + 86400)],
    z.RuleFits u

theorem resolveFits_iff (z : Zone) (u : Int) :
    resolveFits z u = true ↔ Fits u ∧ z.RuleFits u := by
  rw [resolveFits, typeFromTable_eq, Bool.and_eq_true, decide_eq_true_eq]
  unfold Zone.RuleFits
  by_cases h : z.posix ≠ [] ∧ ∀ e ∈ z.transitions, e.1 ≤ u
  · rw [decide_eq_true h, if_pos rfl]
    exact and_congr_right fun _ => ⟨fun hfits _ _ => hfits, fun hfits => hfits h.1 h.2⟩
  · simp only [decide_eq_false h, Bool.false_eq_true, if_false, and_true, iff_self_and]
    exact fun _ hposix hall => absurd ⟨hposix, hall⟩ h

theorem toUtcFits_iff {z : Zone} (hshort : z.Short) (w : Int) :
    toUtcFits z w = true ↔ InReach z w := by
  have hbefore := hshort.offset (w - 86400)
  have hafter := hshort.offset (w + 86400)
  simp only [toUtcFits, Bool.and_eq_true, resolveFits_iff, resolve_offset]
  constructor
  · rintro ⟨⟨⟨⟨he, hr1⟩, hl, hr2⟩, -, hr3⟩, -, hr4⟩
    exact ⟨he, hl, by simp [hr1, hr2, hr3, hr4]⟩
  · rintro ⟨he, hl, hrules⟩
    simp only [List.forall_mem_cons] at hrules
    obtain ⟨hr1, hr2, hr3, hr4, -⟩ := hrules
    unfold Fits at he hl ⊢
    exact ⟨⟨⟨⟨he, hr1⟩, hl, hr2⟩, by omega, hr3⟩, by omega, hr4⟩

/-- The answer is one of the two candidates. -/
theorem toUtc_candidate (z : Zone) (w : Int) :
    (toUtc z w).utc = w - (resolve z (w - 86400)).offset ∨
      (toUtc z w).utc = w - (resolve z (w + 86400)).offset := by
  unfold toUtc
  dsimp only
  split_ifs
  · exact .inl rfl
  · exact min_choice _ _
  · exact .inl rfl
  · exact .inr rfl
  · rcases min_choice (resolve z (w - 86400)).offset (resolve z (w + 86400)).offset with h | h
    · exact .inl (by rw [h])
    · exact .inr (by rw [h])

/-- If the clock shows the local time at the answer, `FromUtc` turns it back. -/
theorem fromUtc64_toUtc {z : Zone} {w : Int} (hfits : toUtcFits z w = true)
    (hreach : InReach z w) (hshown : (toUtc z w).utc + z.offset (toUtc z w).utc = w) :
    fromUtc64 z (toUtc z w).utc = some w := by
  have hw : Fits w := by
    have hearly := hreach.early
    have hlate := hreach.late
    unfold Fits at hearly hlate ⊢
    omega
  have hresolve : resolveFits z (toUtc z w).utc = true := by
    simp only [toUtcFits, Bool.and_eq_true] at hfits
    rcases toUtc_candidate z w with h | h
    · exact h ▸ hfits.1.2
    · exact h ▸ hfits.2
  rw [fromUtc64, resolve64, if_pos hresolve]
  simp only [Option.bind_eq_bind, Option.bind_some, resolve_offset, hshown, fit_of hw]

/-- In a zone whose offset changes rarely, a local time is resolved exactly where nothing
    overflows. -/
theorem toUtc_resolves_iff (z : Zone) (hshort : z.Short) (hcalm : z.Calm) (w : Int) :
    Resolves z w ↔ InReach z w := by
  rw [← toUtcFits_iff hshort, Resolves, toUtc64_eq]
  by_cases hfits : toUtcFits z w = true
  · rw [if_pos hfits]
    refine ⟨fun _ => hfits, fun _ => ⟨_, rfl, ?_⟩⟩
    have hspaced : Spaced z.offset (2 * 86400) := by
      intro s t hs ht hlt
      have hfar := hcalm s t hs ht hlt
      omega
    have hsolves := solve_solves hshort.offset hspaced w
    have hback := @fromUtc64_toUtc z w hfits ((toUtcFits_iff hshort w).mp hfits)
    rw [toUtc_eq] at hback ⊢
    constructor
    · intro hshown
      obtain ⟨hleast, hnever, htwice⟩ := hsolves.first hshown
      exact ⟨hleast, hnever, htwice, hback hleast.1⟩
    · exact hsolves.skipped
  · rw [if_neg hfits]
    exact ⟨fun ⟨r, hr, _⟩ => absurd hr (by simp), fun h => absurd h hfits⟩

/-- The entry of Africa/Bissau. -/
def bissau : Zone where
  name := bytes "Africa/Bissau"
  transitions := [(157770000, 2)]
  types := [⟨-3740, false, 0⟩, ⟨-3600, false, 4⟩, ⟨0, false, 8⟩]
  abbrs := bytes "LMT" ++ [0] ++ bytes "-01" ++ [0] ++ bytes "GMT" ++ [0]
  posix := bytes "GMT0"
  firstType := 1
  sorted := by simp
  valid := by simp
  validFirst := by simp

theorem parsePosix_bissau :
    parsePosix bissau.posix = { valid := true, stdAbbr := bytes "GMT", stdOffset := 0 } := by
  decide +kernel

theorem bissau_offset (u : Int) : bissau.offset u = if u < 157770000 then -3600 else 0 := by
  unfold Zone.offset
  rw [parsePosix_bissau]
  by_cases hu : u < 157770000
  · have hnot : ¬157770000 ≤ u := by omega
    simp [bissau, Zone.inForce, hnot]
  · have hle : 157770000 ≤ u := by omega
    have hposix : bytes "GMT0" ≠ [] := by decide
    simp [bissau, hle, hposix, applyPosix]

theorem bissau_short : bissau.Short where
  types := by simp [bissau]
  std := by rw [parsePosix_bissau]; decide
  dst := by rw [parsePosix_bissau]; decide

theorem bissau_calm : bissau.Calm := by
  have honly : ∀ t, ChangesAt bissau.offset t → t = 157770000 := by
    intro t ht
    unfold ChangesAt at ht
    rw [bissau_offset, bissau_offset] at ht
    split_ifs at ht
    · exact (ht rfl).elim
    · omega
    · omega
    · exact (ht rfl).elim
  intro s t hs ht hlt
  rw [honly s hs, honly t ht] at hlt
  omega

/-- The clock of Bissau is put forward over this local time, at the start of 1975. -/
theorem toUtc_resolves_bissau : Resolves bissau 157768200 := by
  refine (toUtc_resolves_iff bissau bissau_short bissau_calm 157768200).mpr
    ⟨by decide, by decide, fun u _ _ _ => ?_⟩
  rw [parsePosix_bissau]
  rfl

/-- The last local time is not resolved: a day later is out of range. -/
theorem last_wall_overflows :
    bissau.Short ∧ bissau.Calm ∧ Fits 9223372036854775807 ∧
      ¬Resolves bissau 9223372036854775807 := by
  refine ⟨bissau_short, bissau_calm, by decide, ?_⟩
  rw [toUtc_resolves_iff bissau bissau_short bissau_calm]
  intro h
  have hlate := h.late
  revert hlate
  decide

end QuackMail.Tz

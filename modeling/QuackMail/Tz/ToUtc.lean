import QuackMail.Lib.LocalTime
import QuackMail.Tz.Zone

/-! # Between UTC and local time

`FromUtc` and `ToUtc` of `tz.cpp`, for the zone that `FindZone` found.  `ToUtc` probes the offsets a
day before and a day after the local time, read as if it were UTC.  That is enough where the offset
changes at most once in between.
-/

namespace QuackMail.Tz

open LocalTime

/-- `FromUtc`. -/
def fromUtc (z : Zone) (utc : Int) : Int := utc + (resolve z utc).offset

/-- What `ToUtc` sets. -/
structure UtcOf where
  utc : Int
  ambiguous : Bool
  nonexistent : Bool

/-- `ToUtc`. -/
def toUtc (z : Zone) (localWall : Int) : UtcOf :=
  let offsetAt := fun u => (resolve z u).offset
  let before := offsetAt (localWall - 86400)
  let after := offsetAt (localWall + 86400)
  let c1 := localWall - before
  let c2 := localWall - after
  let ok1 := offsetAt c1 = before
  let ok2 := offsetAt c2 = after
  if before = after then ⟨c1, false, false⟩
  else if ok1 ∧ ok2 ∧ c1 ≠ c2 then
    -- the clock went back: the first of the two
    ⟨min c1 c2, true, false⟩
  else if ok1 then ⟨c1, false, false⟩
  else if ok2 then ⟨c2, false, false⟩
  else
    -- the clock jumped forward over this local time
    ⟨localWall - min before after, false, true⟩

/-- The offsets are shorter than a day. -/
structure Zone.Short (z : Zone) : Prop where
  types : ∀ t ∈ z.types, -86400 < t.offset ∧ t.offset < 86400
  std : -86400 < (parsePosix z.posix).stdOffset ∧ (parsePosix z.posix).stdOffset < 86400
  dst : -86400 < (parsePosix z.posix).dstOffset ∧ (parsePosix z.posix).dstOffset < 86400

/-- The offset changes more than 72 hours apart. -/
def Zone.Calm (z : Zone) : Prop := Spaced z.offset 259200

theorem toUtc_eq (z : Zone) (w : Int) :
    toUtc z w = ⟨(solve z.offset 86400 w).instant, (solve z.offset 86400 w).twice,
      (solve z.offset 86400 w).never⟩ := by
  unfold toUtc solve
  simp only [resolve_offset]
  split_ifs
  · rfl
  · rfl
  · rfl
  · rfl
  · rfl

/-- A footer's offset is one of its two. -/
theorem applyPosix_offset {r : PosixRule} {utc : Int} {found : Resolved}
    (h : applyPosix r utc = some found) :
    found.offset = r.stdOffset ∨ found.offset = r.dstOffset := by
  unfold applyPosix at h
  split at h
  · cases h
  split at h
  · exact .inl (Option.some.inj h ▸ rfl)
  · obtain rfl := Option.some.inj h
    exact (ite_eq_or_eq _ _ _).elim (fun hdst => .inr (congrArg Resolved.offset hdst))
      (fun hstd => .inl (congrArg Resolved.offset hstd))

/-- The type in force is one of the zone's. -/
theorem Zone.inForce_mem (z : Zone) (u : Int) : z.inForce u ∈ z.types := by
  have hmem : ∀ i < z.types.length, z.types.getD i default ∈ z.types := by
    intro i hi
    rw [List.getD_eq_getElem?_getD, List.getElem?_eq_getElem hi, Option.getD_some]
    exact List.getElem_mem hi
  apply hmem
  cases hlast : (z.transitions.filter fun e => e.1 ≤ u).getLast? with
  | none => exact z.validFirst
  | some e => exact z.valid e (List.mem_filter.mp (List.mem_of_getLast? hlast)).1

theorem Zone.Short.offset {z : Zone} (h : z.Short) (u : Int) :
    -86400 < z.offset u ∧ z.offset u < 86400 := by
  have htable : -86400 < (z.inForce u).offset ∧ (z.inForce u).offset < 86400 :=
    h.types _ (z.inForce_mem u)
  unfold Zone.offset
  split
  · cases hruled : applyPosix (parsePosix z.posix) u with
    | none => exact htable
    | some r =>
      rw [Option.elim_some]
      rcases applyPosix_offset hruled with hr | hr
      · exact hr ▸ h.std
      · exact hr ▸ h.dst
  · exact htable

end QuackMail.Tz

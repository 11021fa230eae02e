import QuackMail.Bytes
import QuackMail.Lib.SlidingWindow

/-! # Rate limits

The tables `quackmail_rate_limits` and `quackmail_send_log`, and what `CheckRate`, `RecordSend`
and `PruneSendLog` make of them.  Times are microseconds.
-/

namespace QuackMail.Policy

open SlidingWindow

/-- A row of `quackmail_rate_limits`; every column but the key may be NULL. -/
structure LimitRow where
  username : Bytes
  burstMax : Option Int
  burstSecs : Option Int
  dailyMax : Option Int
  enabled : Option Bool

structure RateLimit where
  username : Bytes
  burstMax : Int
  burstSecs : Int
  dailyMax : Int
  enabled : Bool

/-- A row of `quackmail_send_log`. -/
structure SendRow where
  username : Bytes
  rcpt : Bytes
  sentAt : Int

structure RateVerdict where
  allowed : Bool
  reason : Bytes
  retryAfter : Int
  burstUsed : Int
  dailyUsed : Int
  limit : RateLimit

def second : Int := 1000000

/-! ## The limit of a user -/

/-- `LoadLimit`: the user's own row, else the default row, else the defaults of the type. -/
def loadLimit (limits : List LimitRow) (username : Bytes) : RateLimit :=
  let row := (limits.find? fun r => decide (r.username = username)).or
    (limits.find? fun r => decide (r.username = []))
  match row with
  | none => ⟨username, 100, 300, 500, true⟩
  | some r =>
    ⟨r.username, r.burstMax.getD 100, r.burstSecs.getD 300, r.dailyMax.getD 500,
      r.enabled.getD true⟩

def burstSeconds (limit : RateLimit) : Int := if limit.burstSecs > 0 then limit.burstSecs else 300

/-! ## The check -/

/-- The sending times of a user, as the log has them. -/
def timesOf (username : Bytes) (log : List SendRow) : List Int :=
  (log.filter fun r => decide (r.username = username)).map SendRow.sentAt

/-- How much of a window of `secs` the log has used up. -/
def used (log : List SendRow) (now : Int) (username : Bytes) (secs : Int) : Int :=
  countAfter (now - secs * second) (timesOf username log)

/-- `date_diff('second', min(sent_at), now())` over the rows of the window, 0 without rows. -/
def oldest (log : List SendRow) (now : Int) (username : Bytes) (secs : Int) : Int :=
  match ((timesOf username log).filter fun t => decide (now - secs * second < t)).min? with
  | none => 0
  | some t => now / second - t / second

def refusal (what span : Bytes) (usedUp max secs oldest : Int) (v : RateVerdict) : RateVerdict :=
  { v with
    allowed := false
    reason := what ++ bytes " limit exceeded (" ++ numInt usedUp ++ bytes "/" ++ numInt max ++
      bytes " in " ++ span ++ bytes ")"
    retryAfter := if secs - oldest < 1 then 1 else secs - oldest }

/-- `CheckRate`. -/
def checkRate (limits : List LimitRow) (log : List SendRow) (now : Int) (username : Bytes)
    (count : Int) : RateVerdict :=
  let count := if count < 1 then 1 else count
  let limit := loadLimit limits username
  if limit.enabled = false then ⟨true, [], 0, 0, 0, limit⟩
  else
    let secs := burstSeconds limit
    let burstUsed := used log now username secs
    let dailyUsed := used log now username 86400
    let v : RateVerdict := ⟨true, [], 0, burstUsed, dailyUsed, limit⟩
    if limit.burstMax > 0 ∧ burstUsed + count > limit.burstMax then
      refusal (bytes "rate") (numInt secs ++ bytes "s") burstUsed limit.burstMax secs
        (oldest log now username secs) v
    else if limit.dailyMax > 0 ∧ dailyUsed + count > limit.dailyMax then
      refusal (bytes "daily") (bytes "24h") dailyUsed limit.dailyMax 86400
        (oldest log now username 86400) v
    else v

/-- The windows a limit sets, in seconds, each with its bound. -/
def windows (limit : RateLimit) : List (Int × Int) :=
  (if limit.burstMax > 0 then [(burstSeconds limit, limit.burstMax)] else []) ++
    (if limit.dailyMax > 0 then [(86400, limit.dailyMax)] else [])

@[simp] theorem mem_windows {limit : RateLimit} {window : Int × Int} :
    window ∈ windows limit ↔
      (0 < limit.burstMax ∧ window = (burstSeconds limit, limit.burstMax)) ∨
        (0 < limit.dailyMax ∧ window = (86400, limit.dailyMax)) := by
  rw [windows, List.mem_append]
  constructor
  · rintro (h | h)
    · split at h
      · next hpos => exact .inl ⟨hpos, List.mem_singleton.mp h⟩
      · cases h
    · split at h
      · next hpos => exact .inr ⟨hpos, List.mem_singleton.mp h⟩
      · cases h
  · rintro (⟨hpos, rfl⟩ | ⟨hpos, rfl⟩)
    · exact .inl (by rw [if_pos hpos]; exact List.mem_singleton_self _)
    · exact .inr (by rw [if_pos hpos]; exact List.mem_singleton_self _)

/-- A check is passed when no window of the limit would be exceeded. -/
theorem checkRate_allowed {limits : List LimitRow} {log : List SendRow} {now : Int}
    {username : Bytes} (henabled : (loadLimit limits username).enabled = true) {count : Int}
    (hcount : 1 ≤ count) :
    (checkRate limits log now username count).allowed = true ↔
      ∀ window ∈ windows (loadLimit limits username),
        used log now username window.1 + count ≤ window.2 := by
  have hone : (if count < 1 then 1 else count) = count := if_neg (by omega)
  rw [checkRate]
  simp only [henabled, hone, Bool.true_eq_false, if_false]
  constructor
  · intro h window hwindow
    split at h
    · cases h
    · next hburst =>
      split at h
      · cases h
      · next hdaily =>
        rcases mem_windows.mp hwindow with ⟨hpos, rfl⟩ | ⟨hpos, rfl⟩
        · exact Int.not_lt.mp fun hgt => hburst ⟨hpos, hgt⟩
        · exact Int.not_lt.mp fun hgt => hdaily ⟨hpos, hgt⟩
  · intro h
    rw [if_neg, if_neg]
    · rintro ⟨hpos, hgt⟩
      exact absurd (h _ (mem_windows.mpr (.inr ⟨hpos, rfl⟩))) (Int.not_le.mpr hgt)
    · rintro ⟨hpos, hgt⟩
      exact absurd (h _ (mem_windows.mpr (.inl ⟨hpos, rfl⟩))) (Int.not_le.mpr hgt)

/-! ## The log -/

/-- One row of `RecordSend`; the rows of a table have no order, and the newest stands first. -/
def recordSend (log : List SendRow) (now : Int) (username rcpt : Bytes) : List SendRow :=
  ⟨username, rcpt, now⟩ :: log

/-- `PruneSendLog`. -/
def pruneSendLog (log : List SendRow) (now : Int) : List SendRow :=
  log.filter fun r => !decide (r.sentAt < now - 25 * 3600 * second)

theorem timesOf_cons (username : Bytes) (r : SendRow) (log : List SendRow) :
    timesOf username (r :: log) =
      if r.username = username then r.sentAt :: timesOf username log
      else timesOf username log := by
  rw [timesOf, List.filter_cons]
  simp only [decide_eq_true_eq]
  split <;> rfl

/-- Recipients handed over together, in the times of a user. -/
theorem timesOf_map (username user : Bytes) (now : Int) (rcpts : List Bytes)
    (log : List SendRow) :
    timesOf username (rcpts.map (fun r => ⟨user, r, now⟩) ++ log) =
      if user = username then List.replicate rcpts.length now ++ timesOf username log
      else timesOf username log := by
  induction rcpts with
  | nil => split <;> rfl
  | cons r rcpts ih =>
    rw [List.map_cons, List.cons_append, timesOf_cons, ih]
    split <;> rfl

/-- The rows that `PruneSendLog` keeps of a user. -/
theorem countAfter_pruneSendLog {username : Bytes} {log : List SendRow} {now a : Int}
    (h : ∀ r ∈ log, r.username = username → r.sentAt < now - 25 * 3600 * second → r.sentAt ≤ a) :
    countAfter a (timesOf username log) ≤
      countAfter a (timesOf username (pruneSendLog log now)) := by
  rw [timesOf, timesOf, pruneSendLog, countAfter, countAfter, List.countP_map, List.countP_map,
    List.countP_filter, List.countP_filter, List.countP_filter]
  refine List.countP_mono_left fun r hr hcounts => ?_
  simp only [Function.comp_apply, Bool.and_eq_true, decide_eq_true_eq, Bool.not_eq_true',
    decide_eq_false_iff_not] at hcounts ⊢
  refine ⟨hcounts, fun hold => ?_⟩
  have hle := h r hr hcounts.2 hold
  omega

end QuackMail.Policy

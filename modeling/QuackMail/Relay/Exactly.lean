import QuackMail.Relay.Tracked

/-! # The queue loses and repeats nothing

In a run where no worker stops with items in hand, every mark reaches the table, every item has a
host and no refusal follows a lookup that failed for the time being, a row is one worker's at a
time, is not delivered after it was sent, fails for its reasons only, and is claimed again while
it is neither sent nor failed.
-/

namespace QuackMail.Relay

open Smtp

/-! ## Claims that go on -/

/-- What an event claims: the items of the claim of a worker whose pass is over. -/
def claimedBy (sys : System) : Event → List (List Item)
  | .claim w =>
    if (sys.workers w).items = [] then [(claimOutboundDue sys.now 20 sys.rows).2] else []
  | _ => []

/-- The claims of a run, with what each returned. -/
def claims (smarthost : Bytes) (sys : System) : List Event → List (List Item)
  | [] => []
  | e :: events => claimedBy sys e ++ claims smarthost (step smarthost sys e) events

/-- A queued row that is not due after the other. -/
def before (row other : Row) : Bool :=
  decide (other.status = .queued) && decide (other.id ≠ row.id) &&
    decide (other.nextAttemptAt ≤ row.nextAttemptAt)

/-- How many rows can be claimed before the row. -/
def ahead (row : Row) (rows : List Row) : Nat := rows.countP (before row)

theorem before_claimedRow (ids : List Nat) (row other : Row) :
    before row (claimedRow ids other) = (before row other && !decide (other.id ∈ ids)) := by
  by_cases hid : other.id ∈ ids
  · simp [before, claimedRow, hid]
  · simp [claimedRow, hid]

variable {rows : List Row} {it : Item} {sys : System} {smarthost : Bytes}

/-- The due rows that a claim takes are in order, and before those it leaves. -/
theorem dueRows_before {now limit : Nat} {row other : Row}
    (hrow : row ∈ rows) (hqueued : row.status = .queued) (hdue : row.nextAttemptAt ≤ now)
    (hleft : row ∉ dueRows now limit rows) (hother : other ∈ dueRows now limit rows) :
    other.nextAttemptAt ≤ row.nextAttemptAt := by
  have hin : row ∈ (rows.filter (Row.due now)).insertionSort
      fun a b => a.nextAttemptAt ≤ b.nextAttemptAt := by
    rw [List.mem_insertionSort, List.mem_filter]
    exact ⟨hrow, by simp [Row.due, hqueued, hdue]⟩
  have hsorted := List.pairwise_insertionSort (fun a b : Row => a.nextAttemptAt ≤ b.nextAttemptAt)
    (rows.filter (Row.due now))
  rw [← List.take_append_drop limit (List.insertionSort _ _)] at hin hsorted
  have hdrop := (List.mem_append.mp hin).resolve_left hleft
  exact (List.pairwise_append.mp hsorted).2.2 other hother row hdrop

/-- A claim that leaves a due row is full. -/
theorem dueRows_full {now limit : Nat} {row : Row} (hrow : row ∈ rows)
    (hqueued : row.status = .queued) (hdue : row.nextAttemptAt ≤ now)
    (hleft : row ∉ dueRows now limit rows) : (dueRows now limit rows).length = limit := by
  have hin : row ∈ (rows.filter (Row.due now)).insertionSort
      fun a b => a.nextAttemptAt ≤ b.nextAttemptAt := by
    rw [List.mem_insertionSort, List.mem_filter]
    exact ⟨hrow, by simp [Row.due, hqueued, hdue]⟩
  unfold dueRows at hleft ⊢
  rw [List.length_take]
  by_contra hshort
  refine hleft ?_
  rw [List.take_of_length_le (by omega)]
  exact hin

theorem nodup_dueRows {now limit : Nat} (h : (rows.map Row.id).Nodup) :
    (dueRows now limit rows).Nodup := by
  have hrows : rows.Nodup := h.of_map
  have hsorted : ((rows.filter (Row.due now)).insertionSort
      fun a b => a.nextAttemptAt ≤ b.nextAttemptAt).Nodup :=
    (List.perm_insertionSort _ _).nodup_iff.mpr (hrows.filter _)
  exact (List.take_sublist _ _).nodup hsorted

/-- A claim that leaves a due row takes as many before it as its limit. -/
theorem ahead_claim {now limit : Nat} (hnodup : (rows.map Row.id).Nodup)
    {row : Row} (hrow : row ∈ rows) (hqueued : row.status = .queued)
    (hdue : row.nextAttemptAt ≤ now) (hleft : row ∉ dueRows now limit rows) :
    ahead row (claimOutboundDue now limit rows).1 + limit ≤ ahead row rows := by
  let ids := (dueRows now limit rows).map Row.id
  have hafter : ahead row (claimOutboundDue now limit rows).1 =
      rows.countP fun other => before row other && !decide (other.id ∈ ids) := by
    rw [ahead, claim_rows, List.countP_map]
    exact List.countP_congr fun other _ => by
      rw [Function.comp_apply, before_claimedRow]
  -- the claimed rows are among those ahead
  have htaken : limit ≤ rows.countP fun other => before row other && decide (other.id ∈ ids) := by
    rw [← dueRows_full hrow hqueued hdue hleft, List.countP_eq_length_filter]
    refine (List.subperm_of_subset (nodup_dueRows hnodup) ?_).length_le
    intro other hother
    obtain ⟨hmem, hstatus, -⟩ := mem_dueRows hother
    have hne : other.id ≠ row.id := by
      intro hsame
      exact hleft (row_unique hnodup hmem hrow hsame ▸ hother)
    have hearlier := dueRows_before hrow hqueued hdue hleft hother
    refine List.mem_filter.mpr ⟨hmem, ?_⟩
    simp only [before, hstatus, hne, hearlier, ne_eq, not_false_eq_true, decide_true,
      Bool.and_self, Bool.true_and, decide_eq_true_eq]
    exact List.mem_map_of_mem hother
  have hsplit : ahead row rows =
      (rows.countP fun other => before row other && decide (other.id ∈ ids)) +
      rows.countP fun other => before row other && !decide (other.id ∈ ids) := by
    rw [ahead, List.countP_eq_countP_filter_add rows (before row)
      fun other => decide (other.id ∈ ids)]
    simp [List.countP_filter]
  omega

/-- A row that is queued and was due before now. -/
structure Waiting (sys : System) (row : Row) : Prop where
  mem : row ∈ sys.rows
  queued : row.status = .queued
  due : row.nextAttemptAt < sys.now

theorem ahead_mark {now : Nat} {result : Verdict × Bytes} {row : Row}
    (hdue : row.nextAttemptAt < now) (rows : List Row) :
    ahead row (update it.id (markedRow now it result) rows) ≤ ahead row rows := by
  rw [ahead, update, List.countP_map]
  refine List.countP_mono_left fun other _ hafter => ?_
  rw [Function.comp_apply] at hafter
  by_cases hid : other.id = it.id
  · -- the marked row is done, or due after now
    rw [if_pos hid] at hafter
    simp only [before, Bool.and_eq_true, decide_eq_true_eq] at hafter
    obtain ⟨⟨hqueued, -⟩, hearlier⟩ := hafter
    rcases markedRow_cases now it result other with
      ⟨-, hstatus⟩ | ⟨-, hstatus⟩ | ⟨-, -, hstatus⟩ | ⟨-, -, -, -, hlater⟩
    · rw [hstatus] at hqueued
      cases hqueued
    · rw [hstatus] at hqueued
      cases hqueued
    · rw [hstatus] at hqueued
      cases hqueued
    · omega
  · rw [if_neg hid] at hafter
    exact hafter

/-- No worker has a row that is queued. -/
theorem Tracked.not_held (h : Tracked sys) {row : Row} (hrow : row ∈ sys.rows)
    (hqueued : row.status = .queued) {w : Nat} (hit : it ∈ (sys.workers w).items) :
    row.id ≠ it.id := by
  intro hid
  have hsending := (h.row_of_item hit hrow hid).1
  rw [hqueued] at hsending
  cases hsending

/-- A step claims a waiting row, or leaves it waiting with fewer rows ahead of it where it
    claims others. -/
theorem step_waiting {smarthost : Bytes} {sys : System} (h : Tracked sys) {row : Row}
    (hw : Waiting sys row) (e : Event) :
    (∃ items ∈ claimedBy sys e, row.item ∈ items) ∨
      (Waiting (step smarthost sys e) row ∧
        ahead row (step smarthost sys e).rows + 20 * (claimedBy sys e).length ≤
          ahead row sys.rows) := by
  obtain ⟨hrow, hqueued, hdue⟩ := hw
  cases e with
  | enqueue fromAddr rcpt raw =>
    refine Or.inr ⟨⟨List.mem_append_left _ hrow, hqueued, hdue⟩, ?_⟩
    have hnew : before row ⟨sys.nextId, fromAddr, rcpt, raw, .queued, 0, [], sys.now⟩ = false := by
      simp [before, hdue]
    simp [step, claimedBy, ahead, enqueueOutbound, hnew]
  | wait seconds =>
    refine Or.inr ⟨⟨hrow, hqueued, ?_⟩, Nat.le_refl _⟩
    simp only [step]
    omega
  | claim w =>
    by_cases hfree : (sys.workers w).items = []
    · by_cases hclaimed : row.id ∈ (dueRows sys.now 20 sys.rows).map Row.id
      · refine Or.inl ⟨(claimOutboundDue sys.now 20 sys.rows).2, ?_, ?_⟩
        · simp only [claimedBy, if_pos hfree, List.mem_singleton]
        · exact mem_claim_items.mpr ⟨row, hrow, hclaimed, rfl⟩
      · have hleft : row ∉ dueRows sys.now 20 sys.rows :=
          fun hin => hclaimed (List.mem_map_of_mem hin)
        have hfewer := ahead_claim h.numbered hrow hqueued (Nat.le_of_lt hdue) hleft
        refine Or.inr ⟨⟨?_, hqueued, ?_⟩, ?_⟩
        · simp only [step, if_pos hfree, setWorker_rows, claim_rows]
          refine List.mem_map.mpr ⟨row, hrow, ?_⟩
          simp only [claimedRow, if_neg hclaimed]
        · simpa only [step, if_pos hfree, setWorker_now] using hdue
        · simpa only [step, if_pos hfree, setWorker_rows, claimedBy, List.length_singleton,
            Nat.mul_one] using hfewer
    · refine Or.inr ⟨?_, ?_⟩
      · simp only [step, if_neg hfree]
        exact ⟨hrow, hqueued, hdue⟩
      · simp only [step, claimedBy, if_neg hfree, List.length_nil, Nat.mul_zero, Nat.add_zero,
          Nat.le_refl]
  | deliver w answer reply =>
    refine Or.inr ?_
    rw [step]
    split
    · exact ⟨⟨hrow, hqueued, hdue⟩, Nat.le_refl _⟩
    · exact ⟨⟨hrow, hqueued, hdue⟩, Nat.le_refl _⟩
  | mark w succeeds =>
    refine Or.inr ?_
    rw [step]
    split
    case h_1 it items result hworker =>
      cases succeeds with
      | false => exact ⟨⟨hrow, hqueued, hdue⟩, Nat.le_refl _⟩
      | true =>
        have hother : row.id ≠ it.id := by
          refine h.not_held hrow hqueued (w := w) ?_
          rw [hworker]
          exact List.mem_cons_self
        simp only [if_true, mark_eq]
        refine ⟨⟨mem_update.mpr ⟨row, hrow, if_neg hother⟩, hqueued, hdue⟩, ?_⟩
        exact ahead_mark hdue sys.rows
    case h_2 => exact ⟨⟨hrow, hqueued, hdue⟩, Nat.le_refl _⟩
  | stop w => exact Or.inr ⟨⟨hrow, hqueued, hdue⟩, Nat.le_refl _⟩

/-- A waiting row is claimed, once the claims could have taken all that is ahead of it. -/
theorem claimed_of_waiting (h : Tracked sys) {row : Row}
    (hw : Waiting sys row) (events : List Event)
    (hmany : ahead row sys.rows < 20 * (claims smarthost sys events).length) :
    ∃ items ∈ claims smarthost sys events, row.item ∈ items := by
  induction events generalizing sys with
  | nil => simp [claims] at hmany
  | cons e events ih =>
    simp only [claims, List.length_append] at hmany
    rcases @step_waiting smarthost sys h row hw e with ⟨items, hitems, hin⟩ | ⟨hwaits, hfewer⟩
    · exact ⟨items, List.mem_append_left _ hitems, hin⟩
    · obtain ⟨items, hitems, hin⟩ := ih (h.step_tracked e) hwaits (by omega)
      exact ⟨items, List.mem_append_right _ hitems, hin⟩

/-! ## What the queue promises -/

/-- A row is one worker's at a time, is not delivered after it was sent, fails for its reasons
    only, and is claimed while it is neither sent nor failed. -/
structure Exactly (smarthost : Bytes) (sys : System) : Prop where
  exclusive : ∀ w w' it it', it ∈ (sys.workers w).items → it' ∈ (sys.workers w').items →
    it.id = it'.id → w = w'
  once : ∀ w, ((sys.workers w).items.map Item.id).Nodup
  settled : sys.log.Pairwise fun a b => a.verdict = .delivered .sent → b.id ≠ a.id
  failed : ∀ row ∈ sys.rows, row.status = .failed →
    (∃ r ∈ sys.log, r.id = row.id ∧ r.verdict = .delivered .permanent ∧ r.lookupFailed = false) ∨
      10 ≤ (verdicts sys.log row.id).count (.delivered .transient)
  returned : ∀ row ∈ sys.rows, row.status ≠ .sent → row.status ≠ .failed →
    (∀ w, ∀ it ∈ (sys.workers w).items, it.id ≠ row.id) → row.nextAttemptAt < sys.now →
    ∀ events, ahead row sys.rows < 20 * (claims smarthost sys events).length →
      ∃ items ∈ claims smarthost sys events, row.item ∈ items

/-- The step strands nothing: a worker that stops has no items, a mark reaches the table, and an
    item that is delivered has a host, which does not refuse it for good after a lookup that
    failed for the time being. -/
def Smooth (smarthost : Bytes) (sys : System) : Event → Prop
  | .stop w => (sys.workers w).items = []
  | .mark w succeeds =>
    ∀ it items result, sys.workers w = ⟨it :: items, some result⟩ → succeeds = true
  | .deliver w answer reply =>
    ∀ it items, sys.workers w = ⟨it :: items, none⟩ → smarthost = [] →
      domainOf it.rcpt ≠ [] ∧
        (answer.1 = .tempFail → (reply (domainOf it.rcpt)).1 ≠ .permanent)
  | _ => True

/-- Every step of the run from the system is smooth. -/
def SmoothRun (smarthost : Bytes) (sys : System) : List Event → Prop
  | [] => True
  | e :: events => Smooth smarthost sys e ∧ SmoothRun smarthost (step smarthost sys e) events

/-- Each report has a host behind it, and no refusal follows a lookup that failed for the time
    being. -/
def Founded (log : List Report) : Prop :=
  ∀ r ∈ log, r.verdict ≠ .noMx ∧ (r.verdict = .delivered .permanent → r.lookupFailed = false)

/-- Every row in `sending` is some worker's. -/
def Cared (sys : System) : Prop :=
  ∀ row ∈ sys.rows, row.status = .sending → ∃ w, ∃ it ∈ (sys.workers w).items, it.id = row.id

/-! ## Smooth runs -/

theorem lookupMX_tempFail {domain : Bytes} (hdomain : domain ≠ [])
    {answer : Spf.Status × List MxHost} (htemp : answer.1 = .tempFail) :
    lookupMX domain answer = some [⟨0, domain⟩] := by
  have hrecords : lookupMXRecords domain answer = (.tempFail, []) := by
    simp [lookupMXRecords, hdomain, htemp]
  simp [lookupMX, hdomain, hrecords]

theorem lookupMX_ne_none {domain : Bytes} (hdomain : domain ≠ [])
    (answer : Spf.Status × List MxHost) : lookupMX domain answer ≠ none := by
  unfold lookupMX
  rw [if_neg hdomain]
  split <;> simp

theorem tryHosts_single (deliver : Bytes → SendStatus × Bytes) (host : MxHost)
    (res : SendStatus × Bytes) : tryHosts deliver [host] res = deliver host.host := by
  simp only [tryHosts]
  split <;> rfl

/-- What a smooth delivery reports is founded. -/
theorem attempt_founded {answer : Spf.Status × List MxHost} {reply : Bytes → SendStatus × Bytes}
    (h : smarthost = [] → domainOf it.rcpt ≠ [] ∧
      (answer.1 = .tempFail → (reply (domainOf it.rcpt)).1 ≠ .permanent)) :
    (attempt smarthost answer reply it).1 ≠ .noMx ∧
      ((attempt smarthost answer reply it).1 = .delivered .permanent →
        (decide (smarthost = []) && decide (answer.1 = .tempFail)) = false) := by
  by_cases hsmart : smarthost = []
  · obtain ⟨hdomain, hrefused⟩ := h hsmart
    by_cases htemp : answer.1 = .tempFail
    · have hattempt : (attempt smarthost answer reply it).1 =
          .delivered (reply (domainOf it.rcpt)).1 := by
        simp only [attempt, hsmart, ne_eq, not_true_eq_false, if_false,
          lookupMX_tempFail hdomain htemp, tryHosts_single]
      rw [hattempt]
      refine ⟨by simp, fun hpermanent => ?_⟩
      injection hpermanent with hstatus
      exact absurd hstatus (hrefused htemp)
    · refine ⟨?_, fun _ => by simp [htemp]⟩
      simp only [attempt, hsmart, ne_eq, not_true_eq_false, if_false]
      cases hmx : lookupMX (domainOf it.rcpt) answer with
      | none => exact absurd hmx (lookupMX_ne_none hdomain answer)
      | some mx => simp
  · refine ⟨?_, fun _ => by simp [hsmart]⟩
    simp only [attempt, ne_eq, hsmart, not_false_eq_true, if_true]
    simp

theorem founded_step (h : Founded sys.log) {e : Event}
    (hsmooth : Smooth smarthost sys e) : Founded (step smarthost sys e).log := by
  cases e with
  | enqueue fromAddr rcpt raw => exact h
  | wait seconds => exact h
  | claim w =>
    rw [step]
    split
    · exact h
    · exact h
  | deliver w answer reply =>
    rw [step]
    split
    case h_1 it items hworker =>
      intro r hr
      simp only [setWorker_log, List.mem_append, List.mem_singleton] at hr
      cases hr with
      | inl hold => exact h r hold
      | inr hnew =>
        subst hnew
        exact attempt_founded (hsmooth it items hworker)
    case h_2 => exact h
  | mark w succeeds =>
    rw [step]
    split
    · exact h
    · exact h
  | stop w => exact h

/-- A marked row is not in `sending`. -/
theorem markedRow_not_sending (now : Nat) (it : Item) (result : Verdict × Bytes) (row : Row) :
    (markedRow now it result row).status ≠ .sending := by
  rcases markedRow_cases now it result row with
    ⟨-, hstatus⟩ | ⟨-, hstatus⟩ | ⟨-, -, hstatus⟩ | ⟨-, -, hstatus, -⟩ <;>
    simp [hstatus]

theorem cared_step (h : Cared sys) {e : Event}
    (hsmooth : Smooth smarthost sys e) : Cared (step smarthost sys e) := by
  intro row hrow hsending
  cases e with
  | enqueue fromAddr rcpt raw =>
    simp only [step, enqueueOutbound, List.mem_append, List.mem_singleton] at hrow
    cases hrow with
    | inl hold => exact h row hold hsending
    | inr hnew =>
      subst hnew
      cases hsending
  | wait seconds => exact h row hrow hsending
  | claim w =>
    by_cases hfree : (sys.workers w).items = []
    · simp only [step, if_pos hfree] at hrow ⊢
      rw [setWorker_rows, claim_rows] at hrow
      obtain ⟨old, hold, rfl⟩ := List.mem_map.mp hrow
      rw [claimedRow_id]
      by_cases hid : old.id ∈ (dueRows sys.now 20 sys.rows).map Row.id
      · refine ⟨w, old.item, ?_, rfl⟩
        rw [setWorker_self]
        exact mem_claim_items.mpr ⟨old, hold, hid, rfl⟩
      · -- some other worker has the row
        simp only [claimedRow, if_neg hid] at hsending
        obtain ⟨k, it, hit, hsame⟩ := h old hold hsending
        have hk : k ≠ w := by
          intro hkw
          rw [hkw, hfree] at hit
          cases hit
        refine ⟨k, it, ?_, hsame⟩
        rw [setWorker_other hk]
        exact hit
    · simp only [step, if_neg hfree] at hrow ⊢
      exact h row hrow hsending
  | deliver w answer reply =>
    have hitems : ∀ k, ((step smarthost sys (.deliver w answer reply)).workers k).items =
        (sys.workers k).items := by
      intro k
      rw [step]
      split
      case h_1 it items hworker =>
        by_cases hk : k = w
        · subst hk
          rw [setWorker_self, hworker]
        · rw [setWorker_other hk]
      case h_2 => rfl
    have hrows : (step smarthost sys (.deliver w answer reply)).rows = sys.rows := by
      rw [step]
      split <;> rfl
    rw [hrows] at hrow
    obtain ⟨k, it, hit, hsame⟩ := h row hrow hsending
    exact ⟨k, it, by rw [hitems]; exact hit, hsame⟩
  | mark w succeeds =>
    rw [step] at hrow ⊢
    split at hrow
    case h_1 it items result hworker =>
      rw [hsmooth it items result hworker] at hrow ⊢
      simp only [if_true, mark_eq, setWorker_rows] at hrow ⊢
      obtain ⟨old, hold, rfl⟩ := mem_update.mp hrow
      by_cases hid : old.id = it.id
      · rw [if_pos hid] at hsending
        exact absurd hsending (markedRow_not_sending _ _ _ _)
      · rw [if_neg hid] at hsending ⊢
        obtain ⟨k, other, hother, hsame⟩ := h old hold hsending
        refine ⟨k, other, ?_, hsame⟩
        by_cases hk : k = w
        · subst hk
          rw [hworker] at hother
          rw [setWorker_self]
          cases List.mem_cons.mp hother with
          | inl heq => exact absurd (hsame.symm.trans (congrArg Item.id heq)) hid
          | inr htail => exact htail
        · rw [setWorker_other hk]
          exact hother
    case h_2 => exact h row hrow hsending
  | stop w =>
    obtain ⟨k, it, hit, hsame⟩ := h row hrow hsending
    have hk : k ≠ w := by
      intro hkw
      rw [hkw, hsmooth] at hit
      cases hit
    refine ⟨k, it, ?_, hsame⟩
    rw [step, setWorker_other hk]
    exact hit

/-- What holds after every smooth run. -/
structure Kept (sys : System) : Prop where
  tracked : Tracked sys
  founded : Founded sys.log
  cared : Cared sys

theorem kept_smoothRun (h : Kept sys) {events : List Event}
    (hsmooth : SmoothRun smarthost sys events) : Kept (events.foldl (step smarthost) sys) := by
  induction events generalizing sys with
  | nil => exact h
  | cons e events ih =>
    exact ih ⟨h.tracked.step_tracked e, founded_step h.founded hsmooth.1,
      cared_step h.cared hsmooth.1⟩ hsmooth.2

theorem kept_empty : Kept System.empty :=
  ⟨tracked_empty, fun _ hr => (List.not_mem_nil hr).elim,
    fun _ hrow => (List.not_mem_nil hrow).elim⟩

theorem Kept.failed_founded (h : Kept sys) {row : Row} (hrow : row ∈ sys.rows)
    (hfailed : row.status = .failed) :
    (∃ r ∈ sys.log, r.id = row.id ∧ r.verdict = .delivered .permanent ∧ r.lookupFailed = false) ∨
      10 ≤ (verdicts sys.log row.id).count (.delivered .transient) := by
  have hpast := h.tracked.history row hrow
  simp only [History, hfailed] at hpast
  cases hpast with
  | inl hrefused =>
    obtain ⟨n, v, hverdicts, hv⟩ := hrefused
    have hmem : v ∈ verdicts sys.log row.id := by
      rw [hverdicts]
      exact List.mem_append_right _ (List.mem_singleton_self v)
    obtain ⟨r, hr, hid, hverdict⟩ := mem_verdicts.mp hmem
    obtain ⟨hhost, hlookup⟩ := h.founded r hr
    rcases hv with hpermanent | hnone
    · have hrefusal := hverdict.trans hpermanent
      exact Or.inl ⟨r, hr, hid, hrefusal, hlookup hrefusal⟩
    · exact absurd (hverdict.trans hnone) hhost
  | inr hten =>
    rw [hten]
    exact Or.inr (by simp [transients])

theorem Kept.exactly (h : Kept sys) : Exactly smarthost sys where
  exclusive := h.tracked.exclusive
  once := h.tracked.distinct
  settled := h.tracked.settled
  failed := fun _ hrow hfailed => h.failed_founded hrow hfailed
  returned := by
    intro row hrow hsent hfailed hfree hdue events hmany
    have hqueued : row.status = .queued := by
      cases hstatus : row.status with
      | queued => rfl
      | sending =>
        obtain ⟨w, it, hit, hsame⟩ := h.cared row hrow hstatus
        exact absurd hsame (hfree w it hit)
      | sent => exact absurd hstatus hsent
      | failed => exact absurd hstatus hfailed
    exact claimed_of_waiting h.tracked ⟨hrow, hqueued, hdue⟩ events hmany

/-- After every smooth run the queue keeps its promise. -/
theorem exactly_of_smooth (smarthost : Bytes) (events : List Event)
    (h : SmoothRun smarthost System.empty events) : Exactly smarthost (run smarthost events) :=
  (kept_smoothRun kept_empty h).exactly

/-- A pass over one row, which its host accepts. -/
def onePass : List Event :=
  [.enqueue (bytes "a@x") (bytes "b@y") (bytes "m"), .claim 0,
    .deliver 0 (.ok, [⟨10, bytes "mx"⟩]) fun _ => (.sent, []), .mark 0 true]

theorem exactly_onePass : SmoothRun [] System.empty onePass ∧ Exactly [] (run [] onePass) := by
  have hsmooth : SmoothRun [] System.empty onePass := by
    refine ⟨trivial, trivial, ?_, ?_, trivial⟩
    · intro it items hworker _
      have hit : it.rcpt = bytes "b@y" := by
        injection hworker with hitems _
        injection hitems with hhead _
        rw [← hhead]
        rfl
      rw [hit]
      exact ⟨by decide, by simp⟩
    · intro it items result _
      rfl
  exact ⟨hsmooth, exactly_of_smooth [] onePass hsmooth⟩

/-- A worker that stops after its claim, and starts again. -/
def stoppedPass : List Event :=
  [.enqueue (bytes "a@x") (bytes "b@y") (bytes "m"), .claim 0, .stop 0, .wait 1]

/-- Nobody claims the row again: it stays in `sending`. -/
theorem stopped_pass_strands : ¬ ∀ smarthost events, Exactly smarthost (run smarthost events) := by
  intro h
  let row : Row := ⟨0, bytes "a@x", bytes "b@y", bytes "m", .sending, 0, [], 0⟩
  have hrow : row ∈ (run [] stoppedPass).rows := by decide
  have hfree : ∀ w, ∀ it ∈ ((run [] stoppedPass).workers w).items, it.id ≠ row.id := by
    intro w it hit
    by_cases hw : w = 0
    · subst hw
      cases hit
    · have hidle : (run [] stoppedPass).workers w = .idle := by
        simp [run, stoppedPass, step, System.setWorker, System.empty, hw, Worker.idle]
      rw [hidle] at hit
      cases hit
  obtain ⟨items, hitems, hin⟩ := (h [] stoppedPass).returned row hrow (by decide) (by decide) hfree
    (by decide) [.claim 0] (by decide)
  have hnone : items = [] := by
    have hclaims : claims [] (run [] stoppedPass) [.claim 0] = [[]] := by decide
    exact List.mem_singleton.mp hitems
  rw [hnone] at hin
  cases hin

end QuackMail.Relay

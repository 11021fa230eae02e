import QuackMail.Relay.Queue

/-! # What every run of the queue keeps

The verdicts reported for a row follow its status: a queued row has had as many transient ones as
it counts attempts, a row that was sent ends with that one, and a failed row has its reason there.
A worker that has an item finds the row in `sending`, and no other worker has it.
-/

namespace QuackMail.Relay

open Smtp

/-! ## Rows -/

variable {id : Nat} {rows : List Row}

theorem mem_update {f : Row → Row} {row : Row} :
    row ∈ update id f rows ↔ ∃ old ∈ rows, (if old.id = id then f old else old) = row :=
  List.mem_map

theorem map_id_of_keeps {f : Row → Row} (hf : ∀ row, (f row).id = row.id) (rows : List Row) :
    (rows.map f).map Row.id = rows.map Row.id := by
  rw [List.map_map]
  exact List.map_congr_left fun row _ => hf row

/-- Two rows with one number are one row. -/
theorem row_unique (h : (rows.map Row.id).Nodup) {a b : Row} (ha : a ∈ rows)
    (hb : b ∈ rows) (hab : a.id = b.id) : a = b :=
  List.inj_on_of_nodup_map h ha hb hab

/-- The row after its mark. -/
def markedRow (now : Nat) (it : Item) (result : Verdict × Bytes) (row : Row) : Row :=
  match result.1 with
  | .noMx => { row with status := .failed, lastError := result.2 }
  | .delivered .sent => { row with status := .sent }
  | .delivered .permanent => { row with status := .failed, lastError := result.2 }
  | .delivered .transient =>
    if it.attempts + 1 ≥ 10 then
      { row with
        status := .failed
        lastError :=
          bytes "gave up after " ++ num (it.attempts + 1) ++ bytes " attempts: " ++ result.2 }
    else
      { row with
        status := .queued
        attempts := it.attempts + 1
        lastError := result.2
        nextAttemptAt := now + 60 * (it.attempts + 1) }

theorem mark_eq (now : Nat) (it : Item) (result : Verdict × Bytes) (rows : List Row) :
    mark now it result rows = update it.id (markedRow now it result) rows := by
  obtain ⟨verdict, info⟩ := result
  cases verdict with
  | noMx => rfl
  | delivered status =>
    cases status with
    | sent => rfl
    | permanent => rfl
    | transient =>
      by_cases hten : it.attempts + 1 ≥ 10
      · simp only [mark, markFailed, if_pos hten]
        congr 1
        funext row
        simp only [markedRow, if_pos hten]
      · simp only [mark, markRetry, if_neg hten]
        congr 1
        funext row
        simp only [markedRow, if_neg hten]

@[simp] theorem markedRow_id (now : Nat) (it : Item) (result : Verdict × Bytes) (row : Row) :
    (markedRow now it result row).id = row.id := by
  obtain ⟨verdict, info⟩ := result
  cases verdict with
  | noMx => rfl
  | delivered status =>
    cases status with
    | sent => rfl
    | permanent => rfl
    | transient =>
      simp only [markedRow]
      split <;> rfl

/-- What a mark can make of a row. -/
theorem markedRow_cases (now : Nat) (it : Item) (result : Verdict × Bytes) (row : Row) :
    (result.1 = .delivered .sent ∧ (markedRow now it result row).status = .sent) ∨
    ((result.1 = .delivered .permanent ∨ result.1 = .noMx) ∧
      (markedRow now it result row).status = .failed) ∨
    (result.1 = .delivered .transient ∧ 10 ≤ it.attempts + 1 ∧
      (markedRow now it result row).status = .failed) ∨
    (result.1 = .delivered .transient ∧ it.attempts + 1 < 10 ∧
      (markedRow now it result row).status = .queued ∧
      (markedRow now it result row).attempts = it.attempts + 1 ∧
      now ≤ (markedRow now it result row).nextAttemptAt) := by
  obtain ⟨verdict, info⟩ := result
  cases verdict with
  | noMx => exact Or.inr (Or.inl ⟨Or.inr rfl, rfl⟩)
  | delivered status =>
    cases status with
    | sent => exact Or.inl ⟨rfl, rfl⟩
    | permanent => exact Or.inr (Or.inl ⟨Or.inl rfl, rfl⟩)
    | transient =>
      by_cases hten : it.attempts + 1 ≥ 10
      · have hrow : (markedRow now it (.delivered .transient, info) row).status = .failed := by
          simp only [markedRow, if_pos hten]
        exact Or.inr (Or.inr (Or.inl ⟨rfl, hten, hrow⟩))
      · have hrow : (markedRow now it (.delivered .transient, info) row).status = .queued ∧
            (markedRow now it (.delivered .transient, info) row).attempts = it.attempts + 1 ∧
            now ≤ (markedRow now it (.delivered .transient, info) row).nextAttemptAt := by
          simp only [markedRow, if_neg hten, true_and]
          omega
        exact Or.inr (Or.inr (Or.inr ⟨rfl, by omega, hrow⟩))

/-! ## Claims -/

theorem mem_dueRows {now limit : Nat} {row : Row} (h : row ∈ dueRows now limit rows) :
    row ∈ rows ∧ row.status = .queued ∧ row.nextAttemptAt ≤ now := by
  have hmem := List.mem_of_mem_take h
  simpa [Row.due] using hmem

/-- The row after a claim of the rows `ids`. -/
def claimedRow (ids : List Nat) (row : Row) : Row :=
  if row.id ∈ ids then { row with status := .sending } else row

@[simp] theorem claimedRow_id (ids : List Nat) (row : Row) : (claimedRow ids row).id = row.id := by
  unfold claimedRow
  split <;> rfl

@[simp] theorem claimedRow_attempts (ids : List Nat) (row : Row) :
    (claimedRow ids row).attempts = row.attempts := by
  unfold claimedRow
  split <;> rfl

theorem claim_rows (now limit : Nat) (rows : List Row) : (claimOutboundDue now limit rows).1 =
      rows.map (claimedRow ((dueRows now limit rows).map Row.id)) := rfl

/-- Only queued rows are claimed. -/
theorem queued_of_claimed {now limit : Nat} (hrows : (rows.map Row.id).Nodup)
    {row : Row} (hrow : row ∈ rows) (hid : row.id ∈ (dueRows now limit rows).map Row.id) :
    row ∈ dueRows now limit rows ∧ row.status = .queued := by
  obtain ⟨due, hdue, hsame⟩ := List.mem_map.mp hid
  obtain ⟨hmem, hqueued, -⟩ := mem_dueRows hdue
  have heq : due = row := row_unique hrows hmem hrow hsame
  exact ⟨heq ▸ hdue, heq ▸ hqueued⟩

theorem mem_claim_items {now limit : Nat} {it : Item} : it ∈ (claimOutboundDue now limit rows).2 ↔
      ∃ row ∈ rows, row.id ∈ (dueRows now limit rows).map Row.id ∧ row.item = it := by
  simp only [claimOutboundDue, List.mem_map, List.mem_filter, decide_eq_true_eq, and_assoc]

/-! ## Reports -/

/-- The verdicts reported for a row, in their order. -/
def verdicts (log : List Report) (id : Nat) : List Verdict :=
  (log.filter fun r => decide (r.id = id)).map Report.verdict

theorem mem_verdicts {log : List Report} {v : Verdict} :
    v ∈ verdicts log id ↔ ∃ r ∈ log, r.id = id ∧ r.verdict = v := by
  simp only [verdicts, List.mem_map, List.mem_filter, decide_eq_true_eq, and_assoc]

theorem verdicts_concat_self (log : List Report) (id : Nat) (v : Verdict) (failed : Bool) :
    verdicts (log ++ [⟨id, v, failed⟩]) id = verdicts log id ++ [v] := by
  simp [verdicts]

theorem verdicts_concat_other {other : Nat} (h : other ≠ id) (log : List Report) (v : Verdict)
    (failed : Bool) : verdicts (log ++ [⟨id, v, failed⟩]) other = verdicts log other := by
  simp [verdicts, Ne.symm h]

theorem verdicts_fresh {log : List Report} (h : ∀ r ∈ log, r.id < id) : verdicts log id = [] := by
  rw [List.eq_nil_iff_forall_not_mem]
  intro v hv
  obtain ⟨r, hr, hid, -⟩ := mem_verdicts.mp hv
  exact absurd (h r hr) (by omega)

/-- So many transient results. -/
def transients (n : Nat) : List Verdict := List.replicate n (.delivered .transient)

theorem eq_transient_of_mem {n : Nat} {v : Verdict} (h : v ∈ transients n) :
    v = .delivered .transient :=
  List.eq_of_mem_replicate h

theorem transients_succ (n : Nat) : transients (n + 1) = transients n ++ [.delivered .transient] :=
  List.replicate_succ'

/-! ## The invariant -/

/-- What the verdicts reported for a row have to do with it. -/
def History (row : Row) (past : List Verdict) : Prop :=
  match row.status with
  | .queued => row.attempts < 10 ∧ past = transients row.attempts
  | .sending =>
    row.attempts < 10 ∧
      (past = transients row.attempts ∨ ∃ v, past = transients row.attempts ++ [v])
  | .sent => ∃ n, past = transients n ++ [.delivered .sent]
  | .failed =>
    (∃ n v, past = transients n ++ [v] ∧ (v = .delivered .permanent ∨ v = .noMx)) ∨
      past = transients 10

/-- The items of a worker that it has not delivered. -/
def Worker.untried (worker : Worker) : List Item :=
  match worker.pending with
  | none => worker.items
  | some _ => worker.items.tail

/-- What holds after every run. -/
structure Tracked (sys : System) : Prop where
  numbered : (sys.rows.map Row.id).Nodup
  below : ∀ row ∈ sys.rows, row.id < sys.nextId
  reported : ∀ r ∈ sys.log, r.id < sys.nextId
  settled : sys.log.Pairwise fun a b => a.verdict = .delivered .sent → b.id ≠ a.id
  history : ∀ row ∈ sys.rows, History row (verdicts sys.log row.id)
  held : ∀ w, ∀ it ∈ (sys.workers w).items,
    ∃ row ∈ sys.rows, row.status = .sending ∧ row.id = it.id ∧ row.attempts = it.attempts
  distinct : ∀ w, ((sys.workers w).items.map Item.id).Nodup
  exclusive : ∀ w w' it it', it ∈ (sys.workers w).items → it' ∈ (sys.workers w').items →
    it.id = it'.id → w = w'
  untried : ∀ w, ∀ it ∈ (sys.workers w).untried, verdicts sys.log it.id = transients it.attempts
  tried : ∀ w it items result, sys.workers w = ⟨it :: items, some result⟩ →
    verdicts sys.log it.id = transients it.attempts ++ [result.1]

variable (sys : System) (w : Nat) (worker : Worker)

@[simp] theorem setWorker_self :
    (sys.setWorker w worker).workers w = worker := by simp [System.setWorker]

theorem setWorker_other {w k : Nat} (h : k ≠ w) (sys : System) (worker : Worker) :
    (sys.setWorker w worker).workers k = sys.workers k := by simp [System.setWorker, h]

@[simp] theorem setWorker_rows : (sys.setWorker w worker).rows = sys.rows := rfl

@[simp] theorem setWorker_now : (sys.setWorker w worker).now = sys.now := rfl

@[simp] theorem setWorker_log : (sys.setWorker w worker).log = sys.log := rfl

theorem tracked_empty : Tracked System.empty where
  numbered := List.nodup_nil
  below := by intro row hrow; cases hrow
  reported := by intro r hr; cases hr
  settled := List.Pairwise.nil
  history := by intro row hrow; cases hrow
  held := by intro w it hit; cases hit
  distinct := fun _ => List.nodup_nil
  exclusive := by intro w w' it it' hit; cases hit
  untried := by intro w it hit; cases hit
  tried := by intro w it items result hw; cases hw

/-! ## Steps -/

namespace Tracked

variable {smarthost : Bytes} {sys : System}

theorem enqueue (h : Tracked sys) (fromAddr rcpt raw : Bytes) :
    Tracked (step smarthost sys (.enqueue fromAddr rcpt raw)) where
  numbered := by
    simp only [step, enqueueOutbound, List.map_append, List.map_cons, List.map_nil]
    refine List.nodup_append.mpr ⟨h.numbered, List.nodup_singleton _, ?_⟩
    intro a ha b hb hab
    obtain ⟨row, hrow, rfl⟩ := List.mem_map.mp ha
    have hb' : b = sys.nextId := by simpa using hb
    have hlt := h.below row hrow
    omega
  below := by
    intro row hrow
    simp only [step, enqueueOutbound, List.mem_append, List.mem_singleton] at hrow ⊢
    cases hrow with
    | inl hold =>
      have hlt := h.below row hold
      omega
    | inr hnew =>
      subst hnew
      exact Nat.lt_succ_self _
  reported := fun r hr => Nat.lt_succ_of_lt (h.reported r hr)
  settled := h.settled
  history := by
    intro row hrow
    simp only [step, enqueueOutbound, List.mem_append, List.mem_singleton] at hrow ⊢
    cases hrow with
    | inl hold => exact h.history row hold
    | inr hnew =>
      subst hnew
      exact ⟨by simp, verdicts_fresh h.reported⟩
  held := by
    intro w it hit
    obtain ⟨row, hrow, hsame⟩ := h.held w it hit
    exact ⟨row, List.mem_append_left _ hrow, hsame⟩
  distinct := h.distinct
  exclusive := h.exclusive
  untried := h.untried
  tried := h.tried

theorem wait (h : Tracked sys) (seconds : Nat) : Tracked (step smarthost sys (.wait seconds)) :=
  ⟨h.numbered, h.below, h.reported, h.settled, h.history, h.held, h.distinct, h.exclusive,
    h.untried, h.tried⟩

/-- A row that a worker holds is not among the claimed ones. -/
theorem not_claimed (h : Tracked sys) {limit : Nat} {row : Row} (hrow : row ∈ sys.rows)
    (hsending : row.status = .sending) :
    row.id ∉ (dueRows sys.now limit sys.rows).map Row.id := by
  intro hid
  have hqueued := (queued_of_claimed h.numbered hrow hid).2
  rw [hsending] at hqueued
  cases hqueued

variable {it : Item} {w : Nat} {items : List Item}

/-- What a claimed item is. -/
theorem claimed_item (h : Tracked sys) {limit : Nat}
    (hit : it ∈ (claimOutboundDue sys.now limit sys.rows).2) :
    ∃ row ∈ sys.rows, row.status = .queued ∧ row.item = it ∧
      row.id ∈ (dueRows sys.now limit sys.rows).map Row.id := by
  obtain ⟨row, hrow, hid, hitem⟩ := mem_claim_items.mp hit
  exact ⟨row, hrow, (queued_of_claimed h.numbered hrow hid).2, hitem, hid⟩

/-- A claimed item is nobody else's. -/
theorem claimed_not_held (h : Tracked sys) {limit : Nat} {it' : Item}
    (hit : it ∈ (claimOutboundDue sys.now limit sys.rows).2)
    (hit' : it' ∈ (sys.workers w).items) : it.id ≠ it'.id := by
  intro hsame
  obtain ⟨row, hrow, hqueued, hitem, -⟩ := h.claimed_item hit
  obtain ⟨row', hrow', hsending, hid', -⟩ := h.held w it' hit'
  have hids : row.id = row'.id := by rw [hid', ← hsame, ← hitem]; rfl
  rw [row_unique h.numbered hrow hrow' hids, hsending] at hqueued
  cases hqueued

theorem claim (h : Tracked sys) (w : Nat) : Tracked (step smarthost sys (.claim w)) := by
  rw [step]
  split
  case isFalse hbusy => exact h
  case isTrue hfree =>
    refine ⟨?_, ?_, h.reported, h.settled, ?_, ?_, ?_, ?_, ?_, ?_⟩
    · -- numbered
      rw [setWorker_rows, claim_rows, map_id_of_keeps (claimedRow_id _)]
      exact h.numbered
    · -- below
      intro row hrow
      rw [setWorker_rows, claim_rows] at hrow
      obtain ⟨old, hold, rfl⟩ := List.mem_map.mp hrow
      rw [claimedRow_id]
      exact h.below old hold
    · -- history
      intro row hrow
      rw [setWorker_rows, claim_rows] at hrow
      obtain ⟨old, hold, rfl⟩ := List.mem_map.mp hrow
      have hpast := h.history old hold
      by_cases hid : old.id ∈ (dueRows sys.now 20 sys.rows).map Row.id
      · have hqueued := (queued_of_claimed h.numbered hold hid).2
        simp only [History, hqueued] at hpast
        simp only [History, claimedRow, if_pos hid]
        exact ⟨hpast.1, Or.inl hpast.2⟩
      · simp only [claimedRow, if_neg hid]
        exact hpast
    · -- held
      intro k it hit
      rw [setWorker_rows, claim_rows]
      by_cases hk : k = w
      · subst hk
        rw [setWorker_self] at hit
        obtain ⟨row, hrow, -, hitem, hid⟩ := h.claimed_item hit
        refine ⟨_, List.mem_map_of_mem hrow, ?_, ?_, ?_⟩
        · simp only [claimedRow, if_pos hid]
        · rw [claimedRow_id, ← hitem]; rfl
        · rw [claimedRow_attempts, ← hitem]; rfl
      · rw [setWorker_other hk] at hit
        obtain ⟨row, hrow, hsending, hid, hattempts⟩ := h.held k it hit
        have hkept : row.id ∉ (dueRows sys.now 20 sys.rows).map Row.id :=
          h.not_claimed hrow hsending
        refine ⟨_, List.mem_map_of_mem hrow, ?_, ?_, ?_⟩
        · simp only [claimedRow, if_neg hkept, hsending]
        · rw [claimedRow_id, hid]
        · rw [claimedRow_attempts, hattempts]
    · -- distinct
      intro k
      by_cases hk : k = w
      · subst hk
        rw [setWorker_self]
        simp only [claimOutboundDue, List.map_map]
        exact (List.filter_sublist.map Row.id).nodup h.numbered
      · rw [setWorker_other hk]
        exact h.distinct k
    · -- exclusive
      intro k k' it it' hit hit' hsame
      by_cases hk : k = w
      · by_cases hk' : k' = w
        · rw [hk, hk']
        · subst hk
          rw [setWorker_self] at hit
          rw [setWorker_other hk'] at hit'
          exact absurd hsame (h.claimed_not_held hit hit')
      · by_cases hk' : k' = w
        · subst hk'
          rw [setWorker_other hk] at hit
          rw [setWorker_self] at hit'
          exact absurd hsame.symm (h.claimed_not_held hit' hit)
        · rw [setWorker_other hk] at hit
          rw [setWorker_other hk'] at hit'
          exact h.exclusive k k' it it' hit hit' hsame
    · -- untried
      intro k it hit
      by_cases hk : k = w
      · subst hk
        rw [setWorker_self] at hit
        obtain ⟨row, hrow, hqueued, hitem, -⟩ := h.claimed_item hit
        have hpast := h.history row hrow
        simp only [History, hqueued] at hpast
        rw [← hitem]
        exact hpast.2
      · rw [setWorker_other hk] at hit
        exact h.untried k it hit
    · -- tried
      intro k it items result hworker
      by_cases hk : k = w
      · subst hk
        rw [setWorker_self] at hworker
        injection hworker with _ hpending
        cases hpending
      · rw [setWorker_other hk] at hworker
        exact h.tried k it items result hworker

/-- The row of a worker's item. -/
theorem row_of_item (h : Tracked sys) (hit : it ∈ (sys.workers w).items)
    {row : Row} (hrow : row ∈ sys.rows) (hid : row.id = it.id) :
    row.status = .sending ∧ row.attempts = it.attempts := by
  obtain ⟨held, hheld, hsending, hsame, hattempts⟩ := h.held w it hit
  have heq : row = held := row_unique h.numbered hrow hheld (hid.trans hsame.symm)
  exact heq ▸ ⟨hsending, hattempts⟩

/-- The numbers of two items of a worker differ. -/
theorem head_ne_tail (h : Tracked sys) {other : Item}
    {pending : Option (Verdict × Bytes)} (hw : sys.workers w = ⟨it :: items, pending⟩)
    (hother : other ∈ items) : other.id ≠ it.id := by
  intro hsame
  have hnodup := h.distinct w
  rw [hw] at hnodup
  simp only [List.map_cons, List.nodup_cons] at hnodup
  exact hnodup.1 (hsame ▸ List.mem_map_of_mem hother)

/-- An item of another worker has another number. -/
theorem other_worker_ne (h : Tracked sys) {k : Nat} (hk : k ≠ w) {other : Item}
    (hit : it ∈ (sys.workers w).items) (hother : other ∈ (sys.workers k).items) :
    other.id ≠ it.id :=
  fun hsame => hk (h.exclusive k w other it hother hit hsame)

theorem mem_of_mem_untried {worker : Worker} (h : it ∈ worker.untried) : it ∈ worker.items := by
  unfold Worker.untried at h
  split at h
  · exact h
  · exact List.mem_of_mem_tail h

/-- A row was not sent yet where an item of it is untried. -/
theorem not_sent_of_untried (h : Tracked sys)
    (hit : it ∈ (sys.workers w).untried) {r : Report} (hr : r ∈ sys.log)
    (hsent : r.verdict = .delivered .sent) : it.id ≠ r.id := by
  intro hsame
  have hmem : Verdict.delivered .sent ∈ verdicts sys.log it.id :=
    mem_verdicts.mpr ⟨r, hr, hsame.symm, hsent⟩
  rw [h.untried w it hit] at hmem
  cases eq_transient_of_mem hmem

/-- A worker reports the verdict on the first of its items. -/
theorem report (h : Tracked sys)
    (hw : sys.workers w = ⟨it :: items, none⟩) (result : Verdict × Bytes) (failed : Bool) :
    Tracked (({ sys with log := sys.log ++ [⟨it.id, result.1, failed⟩] } : System).setWorker w
      ⟨it :: items, some result⟩) := by
  have hmem : it ∈ (sys.workers w).items := by
    rw [hw]
    exact List.mem_cons_self
  have huntried : it ∈ (sys.workers w).untried := by
    rw [hw]
    exact List.mem_cons_self
  have hitems : ∀ k, ((({ sys with log := sys.log ++ [⟨it.id, result.1, failed⟩] } :
      System).setWorker w ⟨it :: items, some result⟩).workers k).items =
        (sys.workers k).items := by
    intro k
    by_cases hk : k = w
    · subst hk
      rw [setWorker_self, hw]
    · rw [setWorker_other hk]
  refine ⟨h.numbered, h.below, ?_, ?_, ?_, ?_, ?_, ?_, ?_, ?_⟩
  · -- reported
    intro r hr
    simp only [setWorker_log, List.mem_append, List.mem_singleton] at hr
    cases hr with
    | inl hold => exact h.reported r hold
    | inr hnew =>
      obtain ⟨row, hrow, -, hid, -⟩ := h.held w it hmem
      rw [hnew]
      exact hid ▸ h.below row hrow
  · -- settled
    refine List.pairwise_append.mpr ⟨h.settled, List.pairwise_singleton _ _, ?_⟩
    intro a ha b hb hsent
    rw [List.mem_singleton.mp hb]
    exact h.not_sent_of_untried huntried ha hsent
  · -- history
    intro row hrow
    have hpast := h.history row hrow
    by_cases hid : row.id = it.id
    · obtain ⟨hsending, hattempts⟩ := h.row_of_item hmem hrow hid
      simp only [History, hsending] at hpast ⊢
      refine ⟨hpast.1, Or.inr ⟨result.1, ?_⟩⟩
      rw [setWorker_log, hid, verdicts_concat_self, h.untried w it huntried, hattempts]
    · rw [setWorker_log, verdicts_concat_other hid]
      exact hpast
  · -- held
    intro k other hother
    rw [hitems] at hother
    exact h.held k other hother
  · -- distinct
    intro k
    rw [hitems]
    exact h.distinct k
  · -- exclusive
    intro k k' a b ha hb
    rw [hitems] at ha hb
    exact h.exclusive k k' a b ha hb
  · -- untried
    intro k other hother
    rw [setWorker_log]
    by_cases hk : k = w
    · subst hk
      rw [setWorker_self] at hother
      have htail : other ∈ items := hother
      rw [verdicts_concat_other (h.head_ne_tail hw htail)]
      refine h.untried k other ?_
      rw [hw]
      exact List.mem_cons_of_mem _ htail
    · rw [setWorker_other hk] at hother
      rw [verdicts_concat_other (h.other_worker_ne hk hmem (mem_of_mem_untried hother))]
      exact h.untried k other hother
  · -- tried
    intro k other others result' hworker
    rw [setWorker_log]
    by_cases hk : k = w
    · subst hk
      rw [setWorker_self] at hworker
      injection hworker with hlist hpending
      injection hlist with hhead _
      injection hpending with hresult
      subst hhead hresult
      rw [verdicts_concat_self, h.untried k it huntried]
    · rw [setWorker_other hk] at hworker
      have hother : other ∈ (sys.workers k).items := by
        rw [hworker]
        exact List.mem_cons_self
      rw [verdicts_concat_other (h.other_worker_ne hk hmem hother)]
      exact h.tried k other others result' hworker

theorem deliver (h : Tracked sys) (w : Nat) (answer : Spf.Status × List MxHost)
    (reply : Bytes → SendStatus × Bytes) :
    Tracked (step smarthost sys (.deliver w answer reply)) := by
  rw [step]
  split
  case h_1 it items hw => exact h.report hw _ _
  case h_2 => exact h

/-- A worker drops the first of its items, with the rows as they are. -/
theorem drop_head (h : Tracked sys)
    {result : Verdict × Bytes} (hw : sys.workers w = ⟨it :: items, some result⟩) :
    Tracked (sys.setWorker w ⟨items, none⟩) := by
  have hitems : ∀ k other, other ∈ ((sys.setWorker w ⟨items, none⟩).workers k).items →
      other ∈ (sys.workers k).items := by
    intro k other hother
    by_cases hk : k = w
    · subst hk
      rw [setWorker_self] at hother
      rw [hw]
      exact List.mem_cons_of_mem _ hother
    · rw [setWorker_other hk] at hother
      exact hother
  refine ⟨h.numbered, h.below, h.reported, h.settled, h.history, ?_, ?_, ?_, ?_, ?_⟩
  · -- held
    intro k other hother
    exact h.held k other (hitems k other hother)
  · -- distinct
    intro k
    have hnodup := h.distinct k
    by_cases hk : k = w
    · subst hk
      rw [hw, List.map_cons] at hnodup
      rw [setWorker_self]
      exact hnodup.of_cons
    · rw [setWorker_other hk]
      exact hnodup
  · -- exclusive
    intro k k' a b ha hb
    exact h.exclusive k k' a b (hitems k a ha) (hitems k' b hb)
  · -- untried
    intro k other hother
    by_cases hk : k = w
    · subst hk
      rw [setWorker_self] at hother
      refine h.untried k other ?_
      rw [hw]
      exact hother
    · rw [setWorker_other hk] at hother
      exact h.untried k other hother
  · -- tried
    intro k other others result' hworker
    by_cases hk : k = w
    · subst hk
      rw [setWorker_self] at hworker
      injection hworker with _ hpending
      cases hpending
    · rw [setWorker_other hk] at hworker
      exact h.tried k other others result' hworker

/-- What a mark leaves of a row fits what was reported. -/
theorem history_marked (h : Tracked sys)
    {result : Verdict × Bytes} (hw : sys.workers w = ⟨it :: items, some result⟩) {row : Row}
    (hrow : row ∈ sys.rows) (hid : row.id = it.id) :
    History (markedRow sys.now it result row) (verdicts sys.log it.id) := by
  have hmem : it ∈ (sys.workers w).items := by
    rw [hw]
    exact List.mem_cons_self
  obtain ⟨hsending, hattempts⟩ := h.row_of_item hmem hrow hid
  have hbelow := h.history row hrow
  simp only [History, hsending] at hbelow
  have hpast := h.tried w it items result hw
  rcases markedRow_cases sys.now it result row with
    ⟨hresult, hstatus⟩ | ⟨hresult, hstatus⟩ | ⟨hresult, hten, hstatus⟩ |
    ⟨hresult, hten, hstatus, hcount, -⟩
  · simp only [History, hstatus]
    exact ⟨it.attempts, by rw [hpast, hresult]⟩
  · simp only [History, hstatus]
    exact Or.inl ⟨it.attempts, result.1, hpast, hresult⟩
  · simp only [History, hstatus]
    have hnine : it.attempts = 9 := by omega
    exact Or.inr (by rw [hpast, hresult, hnine, ← transients_succ])
  · simp only [History, hstatus, hcount]
    exact ⟨hten, by rw [hpast, hresult, ← transients_succ]⟩

/-- The mark of a row that no worker has. -/
theorem settle (h : Tracked sys) {id : Nat} {f : Row → Row} (hf : ∀ row, (f row).id = row.id)
    (hfree : ∀ w, ∀ it ∈ (sys.workers w).items, it.id ≠ id)
    (hhistory : ∀ row ∈ sys.rows, row.id = id → History (f row) (verdicts sys.log id)) :
    Tracked { sys with rows := update id f sys.rows } := by
  have hkeeps : ∀ row : Row, (if row.id = id then f row else row).id = row.id := by
    intro row
    split
    · exact hf row
    · rfl
  refine ⟨?_, ?_, h.reported, h.settled, ?_, ?_, h.distinct, h.exclusive, h.untried, h.tried⟩
  · -- numbered
    simp only [update]
    rw [map_id_of_keeps hkeeps]
    exact h.numbered
  · -- below
    intro row hrow
    obtain ⟨old, hold, rfl⟩ := mem_update.mp hrow
    rw [hkeeps]
    exact h.below old hold
  · -- history
    intro row hrow
    obtain ⟨old, hold, rfl⟩ := mem_update.mp hrow
    rw [hkeeps]
    by_cases hid : old.id = id
    · rw [if_pos hid, hid]
      exact hhistory old hold hid
    · rw [if_neg hid]
      exact h.history old hold
  · -- held
    intro k it hit
    obtain ⟨row, hrow, hsending, hid, hattempts⟩ := h.held k it hit
    have hother : row.id ≠ id := hid ▸ hfree k it hit
    exact ⟨row, mem_update.mpr ⟨row, hrow, if_neg hother⟩, hsending, hid, hattempts⟩

theorem mark (h : Tracked sys) (w : Nat) (succeeds : Bool) :
    Tracked (step smarthost sys (.mark w succeeds)) := by
  rw [step]
  split
  case h_1 it items result hw =>
    have hdropped := h.drop_head hw
    cases succeeds with
    | false => exact hdropped
    | true =>
      have hmem : it ∈ (sys.workers w).items := by
        rw [hw]
        exact List.mem_cons_self
      have hfree : ∀ k, ∀ other ∈ ((sys.setWorker w ⟨items, none⟩).workers k).items,
          other.id ≠ it.id := by
        intro k other hother
        by_cases hk : k = w
        · subst hk
          rw [setWorker_self] at hother
          exact h.head_ne_tail hw hother
        · rw [setWorker_other hk] at hother
          exact h.other_worker_ne hk hmem hother
      have hsettled := hdropped.settle (markedRow_id sys.now it result) hfree
        (fun row hrow hid => h.history_marked hw hrow hid)
      simp only [if_true, mark_eq]
      exact hsettled
  case h_2 => exact h

theorem stop (h : Tracked sys) (w : Nat) : Tracked (step smarthost sys (.stop w)) := by
  have hitems : ∀ k other, other ∈ ((sys.setWorker w .idle).workers k).items →
      k ≠ w ∧ other ∈ (sys.workers k).items := by
    intro k other hother
    by_cases hk : k = w
    · subst hk
      rw [setWorker_self] at hother
      cases hother
    · rw [setWorker_other hk] at hother
      exact ⟨hk, hother⟩
  refine ⟨h.numbered, h.below, h.reported, h.settled, h.history, ?_, ?_, ?_, ?_, ?_⟩
  · -- held
    intro k it hit
    exact h.held k it (hitems k it hit).2
  · -- distinct
    intro k
    by_cases hk : k = w
    · subst hk
      rw [step, setWorker_self]
      exact List.nodup_nil
    · rw [step, setWorker_other hk]
      exact h.distinct k
  · -- exclusive
    intro k k' a b ha hb
    exact h.exclusive k k' a b (hitems k a ha).2 (hitems k' b hb).2
  · -- untried
    intro k it hit
    have hk := (hitems k it (mem_of_mem_untried hit)).1
    rw [step, setWorker_other hk] at hit
    exact h.untried k it hit
  · -- tried
    intro k it items result hworker
    have hit : it ∈ ((sys.setWorker w .idle).workers k).items := by
      rw [step] at hworker
      rw [hworker]
      exact List.mem_cons_self
    have hk := (hitems k it hit).1
    rw [step, setWorker_other hk] at hworker
    exact h.tried k it items result hworker

/-- Every step keeps the invariant. -/
theorem step_tracked (h : Tracked sys) (e : Event) : Tracked (step smarthost sys e) := by
  cases e with
  | enqueue fromAddr rcpt raw => exact h.enqueue fromAddr rcpt raw
  | wait seconds => exact h.wait seconds
  | claim w => exact h.claim w
  | deliver w answer reply => exact h.deliver w answer reply
  | mark w succeeds => exact h.mark w succeeds
  | stop w => exact h.stop w

theorem steps_tracked (h : Tracked sys) (events : List Event) :
    Tracked (events.foldl (step smarthost) sys) := by
  induction events generalizing sys with
  | nil => exact h
  | cons e events ih => exact ih (h.step_tracked e)

end Tracked

theorem tracked_run (smarthost : Bytes) (events : List Event) : Tracked (run smarthost events) :=
  tracked_empty.steps_tracked events

end QuackMail.Relay

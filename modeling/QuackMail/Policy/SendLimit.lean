import QuackMail.Policy.SendLog

/-! # The sending limits, over all sessions

A submission asks `CheckRate`, reads or builds its message, hands it to `Send` and records one
row for each recipient, and any number of submissions stand anywhere between these steps.
`CheckRate` sees what is recorded and not what others have been allowed.  Where the
recipients that others have been allowed fit in as well, nothing is sent beyond a limit.
-/

namespace QuackMail.Policy

open SlidingWindow

/-! ## Submissions in progress -/

/-- The submission listener and `EmailSubmission/set` hand all recipients to `Send` at once,
    the scheduling notification one after the other. -/
inductive Door where
  | submission
  | jmap
  | notify
  deriving DecidableEq

/-- A submission that `CheckRate` has let through. -/
structure Submission where
  user : Bytes
  door : Door
  unsent : List Bytes
  unrecorded : List Bytes

structure World where
  now : Int
  log : List SendRow
  submissions : List Submission
  /-- The recipients for which `Send` was called, and when. -/
  sent : List SendRow

inductive Action where
  | check (door : Door) (user : Bytes) (rcpts : List Bytes)
  /-- The message cannot be read, or the storage quota is reached. -/
  | abandon (i : Nat)
  | send (i : Nat) (ok : Bool)
  | record (i : Nat) (ok : Bool)
  | prune

/-- An action, some time after the one before. -/
structure Event where
  elapsed : Nat
  action : Action

/-- What `Send` is called with next. -/
def Submission.group (b : Submission) : List Bytes :=
  match b.door with
  | .notify => b.unsent.take 1
  | _ => b.unsent

/-- After `Send`; a call that fails leaves nothing to record. -/
def Submission.afterSend (b : Submission) (ok : Bool) : Submission :=
  { b with
    unsent := b.unsent.drop b.group.length
    unrecorded := if ok then b.group else [] }

/-- A submission that has nothing left to do is over. -/
def Submission.settled (b : Submission) : Option Submission :=
  if b.unsent = [] ∧ b.unrecorded = [] then none else some b

def replaceAt (bs : List Submission) (i : Nat) (b : Option Submission) : List Submission :=
  bs.take i ++ b.toList ++ bs.drop (i + 1)

def act (limits : List LimitRow) (w : World) : Action → World
  | .check door user rcpts =>
    if rcpts = [] then w
    else if (checkRate limits w.log w.now user rcpts.length).allowed = true then
      { w with submissions := ⟨user, door, rcpts, []⟩ :: w.submissions }
    else w
  | .abandon i =>
    match w.submissions[i]? with
    | none => w
    | some b =>
      if b.door = .notify ∨ b.unrecorded ≠ [] then w
      else { w with submissions := replaceAt w.submissions i none }
  | .send i ok =>
    match w.submissions[i]? with
    | none => w
    | some b =>
      if b.unrecorded ≠ [] then w
      else { w with
        sent := b.group.map (fun r => ⟨b.user, r, w.now⟩) ++ w.sent
        submissions := replaceAt w.submissions i (b.afterSend ok).settled }
  | .record i ok =>
    match w.submissions[i]? with
    | none => w
    | some b =>
      match b.unrecorded with
      | [] => w
      | r :: rest => { w with
        log := if ok then recordSend w.log w.now b.user r else w.log
        submissions := replaceAt w.submissions i { b with unrecorded := rest }.settled }
  | .prune => { w with log := pruneSendLog w.log w.now }

def World.wait (w : World) (d : Nat) : World := { w with now := w.now + d }

def step (limits : List LimitRow) (w : World) (e : Event) : World :=
  act limits (w.wait e.elapsed) e.action

def run (limits : List LimitRow) (w : World) (events : List Event) : World :=
  events.foldl (step limits) w

def start (now : Int) : World := ⟨now, [], [], []⟩

/-- No window of a limit of the user holds more than its bound. -/
def Within (limits : List LimitRow) (user : Bytes) (w : World) : Prop :=
  ∀ window ∈ windows (loadLimit limits user), ∀ a,
    countWithin (window.1 * second) a (timesOf user w.sent) ≤ window.2

/-! ## What is outstanding -/

def tally (f : Submission → Nat) : List Submission → Nat
  | [] => 0
  | b :: bs => f b + tally f bs

def unsentOf (user : Bytes) (b : Submission) : Nat :=
  if b.user = user then b.unsent.length else 0

def unrecordedOf (user : Bytes) (b : Submission) : Nat :=
  if b.user = user then b.unrecorded.length else 0

/-- The recipients of a user that `CheckRate` has allowed and the log does not show. -/
def outstanding (user : Bytes) (bs : List Submission) : Nat :=
  tally (unsentOf user) bs + tally (unrecordedOf user) bs

theorem tally_append (f : Submission → Nat) (bs cs : List Submission) :
    tally f (bs ++ cs) = tally f bs + tally f cs := by
  induction bs with
  | nil => exact (Nat.zero_add _).symm
  | cons b bs ih => rw [List.cons_append, tally, tally, ih, Nat.add_assoc]

/-- One submission changes, and the tally by what it changes. -/
theorem tally_replaceAt {f : Submission → Nat} {bs : List Submission} {i : Nat} {b : Submission}
    (hb : bs[i]? = some b) (new : Option Submission) :
    tally f (replaceAt bs i new) + f b = tally f bs + tally f new.toList := by
  obtain ⟨hi, rfl⟩ := List.getElem?_eq_some_iff.mp hb
  have hsplit : bs = bs.take i ++ bs[i] :: bs.drop (i + 1) := by
    rw [List.getElem_cons_drop, List.take_append_drop]
  have htally := congrArg (tally f) hsplit
  rw [tally_append, tally] at htally
  rw [replaceAt, tally_append, tally_append]
  omega

theorem le_tally {f : Submission → Nat} {bs : List Submission} {i : Nat} {b : Submission}
    (hb : bs[i]? = some b) : f b ≤ tally f bs := by
  have h := tally_replaceAt (f := f) hb none
  simp only [Option.toList_none, tally] at h
  omega

theorem tally_settled (f : Submission → Nat) (b : Submission)
    (hf : b.unsent = [] → b.unrecorded = [] → f b = 0) : tally f b.settled.toList = f b := by
  rw [Submission.settled]
  split
  · next h => exact (hf h.1 h.2).symm
  · rfl

theorem tally_unsent_settled (user : Bytes) (b : Submission) :
    tally (unsentOf user) b.settled.toList = unsentOf user b := by
  refine tally_settled _ b fun h _ => ?_
  rw [unsentOf, h]
  exact ite_self _

theorem tally_unrecorded_settled (user : Bytes) (b : Submission) :
    tally (unrecordedOf user) b.settled.toList = unrecordedOf user b := by
  refine tally_settled _ b fun _ h => ?_
  rw [unrecordedOf, h]
  exact ite_self _

/-! ## The ledger of a user -/

def ledgerOf (user : Bytes) (w : World) : Ledger where
  now := w.now
  spent := timesOf user w.sent
  charged := timesOf user w.log
  reserved := tally (unsentOf user) w.submissions
  owed := tally (unrecordedOf user) w.submissions

/-- What must hold of an action for the limits of a user to hold after it. -/
def Steady (limits : List LimitRow) (user : Bytes) (w : World) : Action → Prop
  | .check _ other rcpts =>
    other = user →
      -- refused by what is recorded, or what others have been allowed fits in as well
      (∃ window ∈ windows (loadLimit limits user),
        window.2 < used w.log w.now user window.1 + rcpts.length) ∨
      ∀ window ∈ windows (loadLimit limits user),
        used w.log w.now user window.1 + outstanding user w.submissions + rcpts.length ≤ window.2
  | .abandon _ => True
  | .send i ok => ∀ b, w.submissions[i]? = some b → b.user = user → ok = true
  | .record i ok => ∀ b, w.submissions[i]? = some b → b.user = user → ok = true
  | .prune =>
    ∀ window ∈ windows (loadLimit limits user), ∀ r ∈ w.log, r.username = user →
      r.sentAt < w.now - 25 * 3600 * second → r.sentAt ≤ w.now - window.1 * second

def SteadyRun (limits : List LimitRow) (user : Bytes) : World → List Event → Prop
  | _, [] => True
  | w, e :: events =>
    Steady limits user (w.wait e.elapsed) e.action ∧
      SteadyRun limits user (step limits w e) events

/-! ## Every action is a step of the ledger -/

theorem group_length_le (b : Submission) : b.group.length ≤ b.unsent.length := by
  rw [Submission.group]
  split
  · exact List.length_take_le' _ _
  · exact Nat.le_refl _

theorem unsentOf_afterSend (user : Bytes) (b : Submission) (ok : Bool) :
    unsentOf user (b.afterSend ok) =
      if b.user = user then b.unsent.length - b.group.length else 0 := by
  rw [unsentOf, Submission.afterSend, List.length_drop]

theorem unrecordedOf_afterSend (user : Bytes) (b : Submission) :
    unrecordedOf user (b.afterSend true) = if b.user = user then b.group.length else 0 := by
  rfl

section Ledger

variable {limits : List LimitRow} {user : Bytes} {w : World} {window : Int × Int}

/-- Checks, sends and records of others do not show. -/
theorem ledgerOf_check (hsound : Sound (window.1 * second) window.2 (ledgerOf user w))
    (henabled : (loadLimit limits user).enabled = true)
    (hwindow : window ∈ windows (loadLimit limits user)) {door : Door} {other : Bytes}
    {rcpts : List Bytes} (h : Steady limits user w (.check door other rcpts)) :
    Sound (window.1 * second) window.2
      (ledgerOf user (act limits w (.check door other rcpts))) := by
  rw [act]
  split
  · exact hsound
  · next hne =>
    split
    · next hallowed =>
      by_cases hother : other = user
      · subst hother
        have hcount : (1 : Int) ≤ rcpts.length := by
          have hpos := List.length_pos_of_ne_nil hne
          omega
        have hfits := (checkRate_allowed henabled hcount).mp hallowed
        rcases h rfl with ⟨window', hwindow', hbeyond⟩ | hroom
        · exact absurd (hfits window' hwindow') (Int.not_le.mpr hbeyond)
        · have hstep := @Step.reserve (window.1 * second) window.2 (ledgerOf other w)
            rcpts.length <| by
              have hle := hroom window hwindow
              simp only [used, outstanding] at hle
              simp only [ledgerOf]
              omega
          have heq : ledgerOf other
              { w with submissions := ⟨other, door, rcpts, []⟩ :: w.submissions } =
                { ledgerOf other w with
                  reserved := (ledgerOf other w).reserved + rcpts.length } := by
            simp [ledgerOf, tally, unsentOf, unrecordedOf, Nat.add_comm]
          rw [heq]
          exact hsound.step hstep
      · have heq : ledgerOf user
            { w with submissions := ⟨other, door, rcpts, []⟩ :: w.submissions } =
              ledgerOf user w := by
          simp [ledgerOf, tally, unsentOf, unrecordedOf, hother]
        rw [heq]
        exact hsound
    · exact hsound

theorem ledgerOf_abandon (hsound : Sound (window.1 * second) window.2 (ledgerOf user w))
    (i : Nat) :
    Sound (window.1 * second) window.2 (ledgerOf user (act limits w (.abandon i))) := by
  rw [act]
  split
  · exact hsound
  · next b hb =>
    split
    · exact hsound
    · next hopen =>
      have hnone : b.unrecorded = [] := by
        by_contra hne
        exact hopen (.inr hne)
      have hunsent := tally_replaceAt (f := unsentOf user) hb none
      have hunrecorded := tally_replaceAt (f := unrecordedOf user) hb none
      have hzero : unrecordedOf user b = 0 := by
        rw [unrecordedOf, hnone]
        exact ite_self _
      simp only [Option.toList_none, tally, hzero] at hunsent hunrecorded
      have heq : ledgerOf user { w with submissions := replaceAt w.submissions i none } =
          { ledgerOf user w with
            reserved := (ledgerOf user w).reserved - unsentOf user b } := by
        simp only [ledgerOf, Ledger.mk.injEq, true_and]
        omega
      rw [heq]
      exact hsound.step (Step.release _)

theorem ledgerOf_send (hsound : Sound (window.1 * second) window.2 (ledgerOf user w))
    {i : Nat} {ok : Bool} (h : Steady limits user w (.send i ok)) :
    Sound (window.1 * second) window.2 (ledgerOf user (act limits w (.send i ok))) := by
  rw [act]
  split
  · exact hsound
  · next b hb =>
    split
    · exact hsound
    · next hopen =>
      have hnone : b.unrecorded = [] := by
        by_contra hne
        exact hopen hne
      have hunsent := tally_replaceAt (f := unsentOf user) hb (b.afterSend ok).settled
      have hunrecorded := tally_replaceAt (f := unrecordedOf user) hb (b.afterSend ok).settled
      rw [tally_unsent_settled, unsentOf_afterSend] at hunsent
      rw [tally_unrecorded_settled] at hunrecorded
      have hle := le_tally (f := unsentOf user) hb
      have hgroup := group_length_le b
      have hzero : unrecordedOf user b = 0 := by
        rw [unrecordedOf, hnone]
        exact ite_self _
      by_cases hother : b.user = user
      · obtain rfl := h b hb hother
        rw [unrecordedOf_afterSend] at hunrecorded
        rw [unsentOf, if_pos hother] at hunsent hle
        rw [if_pos hother] at hunsent hunrecorded
        have heq : ledgerOf user { w with
            sent := b.group.map (fun r => ⟨b.user, r, w.now⟩) ++ w.sent
            submissions := replaceAt w.submissions i (b.afterSend true).settled } =
            { ledgerOf user w with
              spent := List.replicate b.group.length (ledgerOf user w).now ++
                (ledgerOf user w).spent
              reserved := (ledgerOf user w).reserved - b.group.length
              owed := (ledgerOf user w).owed + b.group.length } := by
          simp only [ledgerOf, Ledger.mk.injEq, true_and, timesOf_map, if_pos hother]
          omega
        rw [heq]
        refine hsound.step (Step.spend b.group.length ?_)
        simp only [ledgerOf]
        omega
      · rw [unsentOf, if_neg hother] at hunsent
        rw [if_neg hother] at hunsent
        have hzero' : unrecordedOf user (b.afterSend ok) = 0 := by
          exact if_neg hother
        have heq : ledgerOf user { w with
            sent := b.group.map (fun r => ⟨b.user, r, w.now⟩) ++ w.sent
            submissions := replaceAt w.submissions i (b.afterSend ok).settled } =
            ledgerOf user w := by
          simp only [ledgerOf, Ledger.mk.injEq, true_and, timesOf_map, if_neg hother]
          omega
        rw [heq]
        exact hsound

theorem ledgerOf_record (hsound : Sound (window.1 * second) window.2 (ledgerOf user w))
    {i : Nat} {ok : Bool} (h : Steady limits user w (.record i ok)) :
    Sound (window.1 * second) window.2 (ledgerOf user (act limits w (.record i ok))) := by
  rw [act]
  split
  · exact hsound
  · next b hb =>
    split
    · exact hsound
    · next r rest hrest =>
      have hunsent := tally_replaceAt (f := unsentOf user) hb
        { b with unrecorded := rest }.settled
      have hunrecorded := tally_replaceAt (f := unrecordedOf user) hb
        { b with unrecorded := rest }.settled
      rw [tally_unsent_settled] at hunsent
      rw [tally_unrecorded_settled] at hunrecorded
      have hsame : unsentOf user { b with unrecorded := rest } = unsentOf user b := rfl
      have hfewer : unrecordedOf user b =
          unrecordedOf user { b with unrecorded := rest } + if b.user = user then 1 else 0 := by
        rw [unrecordedOf, unrecordedOf, hrest]
        split <;> rfl
      by_cases hother : b.user = user
      · obtain rfl := h b hb hother
        rw [if_pos hother] at hfewer
        have heq : ledgerOf user { w with
            log := if true then recordSend w.log w.now b.user r else w.log
            submissions := replaceAt w.submissions i { b with unrecorded := rest }.settled } =
            { ledgerOf user w with
              charged := (ledgerOf user w).now :: (ledgerOf user w).charged
              owed := (ledgerOf user w).owed - 1 } := by
          simp only [ledgerOf, Ledger.mk.injEq, true_and, if_true, recordSend, timesOf_cons,
            if_pos hother]
          omega
        rw [heq]
        refine hsound.step (Step.charge ?_)
        simp only [ledgerOf]
        omega
      · rw [if_neg hother] at hfewer
        have heq : ledgerOf user { w with
            log := if ok then recordSend w.log w.now b.user r else w.log
            submissions := replaceAt w.submissions i { b with unrecorded := rest }.settled } =
            ledgerOf user w := by
          have hlog : timesOf user (if ok = true then recordSend w.log w.now b.user r else w.log) =
              timesOf user w.log := by
            split
            · rw [recordSend, timesOf_cons, if_neg hother]
            · rfl
          simp only [ledgerOf, Ledger.mk.injEq, true_and, hlog]
          omega
        rw [heq]
        exact hsound

theorem ledgerOf_prune (hsound : Sound (window.1 * second) window.2 (ledgerOf user w))
    (hwindow : window ∈ windows (loadLimit limits user)) (h : Steady limits user w .prune) :
    Sound (window.1 * second) window.2 (ledgerOf user (act limits w .prune)) := by
  have hstep := @Step.forget (window.1 * second) window.2 (ledgerOf user w)
    (timesOf user (pruneSendLog w.log w.now)) fun a ha =>
      countAfter_pruneSendLog fun r hr huser hold =>
        Int.le_trans (h window hwindow r hr huser hold) ha
  exact hsound.step hstep

/-- A steady action keeps the ledger of the user in order. -/
theorem ledgerOf_act (henabled : (loadLimit limits user).enabled = true)
    (hwindow : window ∈ windows (loadLimit limits user))
    (hsound : Sound (window.1 * second) window.2 (ledgerOf user w)) {a : Action}
    (h : Steady limits user w a) :
    Sound (window.1 * second) window.2 (ledgerOf user (act limits w a)) := by
  cases a with
  | check door other rcpts => exact ledgerOf_check hsound henabled hwindow h
  | abandon i => exact ledgerOf_abandon hsound i
  | send i ok => exact ledgerOf_send hsound h
  | record i ok => exact ledgerOf_record hsound h
  | prune => exact ledgerOf_prune hsound hwindow h

end Ledger

/-! ## Runs -/

theorem ledgerOf_run {limits : List LimitRow} {user : Bytes} {window : Int × Int}
    (henabled : (loadLimit limits user).enabled = true)
    (hwindow : window ∈ windows (loadLimit limits user)) (events : List Event) :
    ∀ {w : World}, Sound (window.1 * second) window.2 (ledgerOf user w) →
      SteadyRun limits user w events →
      Sound (window.1 * second) window.2 (ledgerOf user (run limits w events)) := by
  induction events with
  | nil => exact fun hsound _ => hsound
  | cons e events ih =>
    intro w hsound h
    have hwait : Sound (window.1 * second) window.2 (ledgerOf user (w.wait e.elapsed)) :=
      hsound.step (Step.wait e.elapsed)
    exact ih (ledgerOf_act henabled hwindow hwait h.1) h.2

/-- In every steady run the limits of the user hold, in every state. -/
theorem within_of_steady (limits : List LimitRow) (user : Bytes)
    (henabled : (loadLimit limits user).enabled = true) (now : Int) (events : List Event)
    (h : SteadyRun limits user (start now) events) :
    Within limits user (run limits (start now) events) := by
  intro window hwindow
  have hmax : 0 ≤ window.2 := by
    rcases mem_windows.mp hwindow with ⟨hpos, rfl⟩ | ⟨hpos, rfl⟩
    · exact Int.le_of_lt hpos
    · exact Int.le_of_lt hpos
  exact (ledgerOf_run henabled hwindow events (sound_open hmax now) h).bounded

/-- A limit of one message in five minutes. -/
def oneEach : List LimitRow := [⟨bytes "ann", some 1, some 300, some 500, some true⟩]

/-- One session after the other, the second five minutes later. -/
def apart : List Event :=
  [⟨0, .check .submission (bytes "ann") [bytes "bob"]⟩, ⟨1000, .send 0 true⟩,
    ⟨1000, .record 0 true⟩, ⟨0, .prune⟩,
    ⟨300000000, .check .notify (bytes "ann") [bytes "cid"]⟩, ⟨1000, .send 0 true⟩]

theorem within_of_steady_apart :
    SteadyRun oneEach (bytes "ann") (start 0) apart ∧
      Within oneEach (bytes "ann") (run oneEach (start 0) apart) := by
  have hsteady : SteadyRun oneEach (bytes "ann") (start 0) apart := by
    refine ⟨fun _ => .inr (by decide +kernel), fun _ _ _ => rfl, fun _ _ _ => rfl, ?_,
      fun _ => .inr (by decide +kernel), fun _ _ _ => rfl, trivial⟩
    intro window hwindow r hr huser hold
    have hrow : r ∈ ([⟨bytes "ann", bytes "bob", 2000⟩] : List SendRow) := hr
    obtain rfl := List.mem_singleton.mp hrow
    exact absurd hold (by decide +kernel)
  exact ⟨hsteady, within_of_steady _ _ (by decide +kernel) 0 apart hsteady⟩

/-- Two sessions of one user that both ask before either of them records. -/
def crossed : List Event :=
  [⟨0, .check .submission (bytes "ann") [bytes "bob"]⟩,
    ⟨1000, .check .jmap (bytes "ann") [bytes "cid"]⟩,
    ⟨1000, .send 0 true⟩, ⟨1000, .send 1 true⟩]

/-- Both are let through. -/
theorem not_within_crossed : ¬Within oneEach (bytes "ann") (run oneEach (start 0) crossed) := by
  intro h
  have hbound := h (300, 1) (by decide +kernel) 0
  revert hbound
  decide +kernel

end QuackMail.Policy

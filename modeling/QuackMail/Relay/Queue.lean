import Mathlib.Data.List.Sort
import QuackMail.Smtp.Client
import QuackMail.Spf.Evaluate

/-! # The outbound queue

The rows of `quackmail_outbound` with the statements of `mail_store.cpp`, and the drainers of
`RelayManager`, which claim rows, deliver them one by one and mark each.  A worker can stop
between any two steps, and the statement of a mark can fail.
-/

namespace QuackMail.Relay

open Smtp

/-- The column `status`. -/
inductive RowStatus
  | queued
  | sending
  | sent
  | failed
  deriving DecidableEq

/-- A row of `quackmail_outbound`. -/
structure Row where
  id : Nat
  fromAddr : Bytes
  rcpt : Bytes
  raw : Bytes
  status : RowStatus
  attempts : Nat
  lastError : Bytes
  nextAttemptAt : Nat
  deriving DecidableEq

/-- `OutboundItem`. -/
structure Item where
  id : Nat
  fromAddr : Bytes
  rcpt : Bytes
  raw : Bytes
  attempts : Nat
  deriving DecidableEq

def Row.item (row : Row) : Item := ⟨row.id, row.fromAddr, row.rcpt, row.raw, row.attempts⟩

/-! ## The statements -/

/-- `UPDATE quackmail_outbound SET … WHERE id = $1`. -/
def update (id : Nat) (f : Row → Row) (rows : List Row) : List Row :=
  rows.map fun row => if row.id = id then f row else row

/-- `EnqueueOutbound`, with the number the sequence gives. -/
def enqueueOutbound (now id : Nat) (fromAddr rcpt raw : Bytes) (rows : List Row) : List Row :=
  rows ++ [⟨id, fromAddr, rcpt, raw, .queued, 0, [], now⟩]

/-- The row is queued and due. -/
def Row.due (now : Nat) (row : Row) : Bool :=
  decide (row.status = .queued) && decide (row.nextAttemptAt ≤ now)

/-- The rows that are due, the earliest first, `limit` at most. -/
def dueRows (now limit : Nat) (rows : List Row) : List Row :=
  ((rows.filter (Row.due now)).insertionSort
    fun a b => a.nextAttemptAt ≤ b.nextAttemptAt).take limit

/-- `ClaimOutboundDue`. -/
def claimOutboundDue (now limit : Nat) (rows : List Row) : List Row × List Item :=
  let ids := (dueRows now limit rows).map Row.id
  (rows.map fun row => if row.id ∈ ids then { row with status := .sending } else row,
    (rows.filter fun row => row.id ∈ ids).map Row.item)

/-- `MarkSent`. -/
def markSent (id : Nat) : List Row → List Row := update id fun row => { row with status := .sent }

/-- `MarkFailed`. -/
def markFailed (id : Nat) (err : Bytes) : List Row → List Row :=
  update id fun row => { row with status := .failed, lastError := err }

/-- `MarkRetry`. -/
def markRetry (now id attempts backoffSecs : Nat) (err : Bytes) : List Row → List Row :=
  update id fun row =>
    { row with
      status := .queued
      attempts := attempts
      lastError := err
      nextAttemptAt := now + backoffSecs }

/-! ## Routing and delivery -/

/-- `MxHost`. -/
structure MxHost where
  preference : Nat
  host : Bytes

/-- `LookupMXRecords`: the records come with a status, none of them with a failure. -/
def lookupMXRecords (domain : Bytes) (answer : Spf.Status × List MxHost) :
    Spf.Status × List MxHost :=
  if domain = [] then (.nxDomain, [])
  else if answer.1 = .ok then
    (.ok, answer.2.insertionSort fun a b => a.preference ≤ b.preference)
  else (answer.1, [])

/-- `LookupMX`: the status is dropped, and the domain itself stands in for no records. -/
def lookupMX (domain : Bytes) (answer : Spf.Status × List MxHost) : Option (List MxHost) :=
  if domain = [] then none
  else if (lookupMXRecords domain answer).2 = [] then some [⟨0, domain⟩]
  else some (lookupMXRecords domain answer).2

/-- The hosts in turn, until one accepts or refuses for good. -/
def tryHosts (deliver : Bytes → SendStatus × Bytes) :
    List MxHost → SendStatus × Bytes → SendStatus × Bytes
  | [], res => res
  | h :: hosts, _ =>
    let res := deliver h.host
    if res.1 = .sent ∨ res.1 = .permanent then res else tryHosts deliver hosts res

/-- What a worker learns of an item: the result of the delivery, or that there is no host. -/
inductive Verdict
  | delivered (status : SendStatus)
  | noMx
  deriving DecidableEq

/-- The domain of a recipient. -/
def domainOf (rcpt : Bytes) : Bytes :=
  match findChar (ch '@') rcpt with
  | none => []
  | some at0 => rcpt.drop (at0 + 1)

/-- The first part of `ProcessOne`: the result and its text. -/
def attempt (smarthost : Bytes) (answer : Spf.Status × List MxHost)
    (deliver : Bytes → SendStatus × Bytes) (it : Item) : Verdict × Bytes :=
  if smarthost ≠ [] then
    let res := deliver smarthost
    (.delivered res.1, res.2)
  else
    match lookupMX (domainOf it.rcpt) answer with
    | none => (.noMx, bytes "no MX for domain '" ++ domainOf it.rcpt ++ bytes "'")
    | some mx =>
      let res := tryHosts deliver mx (.transient, bytes "no MX host reachable")
      (.delivered res.1, res.2)

/-- The second part of `ProcessOne`: the mark. -/
def mark (now : Nat) (it : Item) (result : Verdict × Bytes) (rows : List Row) : List Row :=
  match result.1 with
  | .noMx => markFailed it.id result.2 rows
  | .delivered .sent => markSent it.id rows
  | .delivered .permanent => markFailed it.id result.2 rows
  | .delivered .transient =>
    let attempts := it.attempts + 1
    if attempts ≥ 10 then
      markFailed it.id (bytes "gave up after " ++ num attempts ++ bytes " attempts: " ++ result.2)
        rows
    else markRetry now it.id attempts (60 * attempts) result.2 rows

/-! ## Runs -/

/-- A drainer: the items of its pass that are not marked yet, and the result for the first of
    them where that was delivered. -/
structure Worker where
  items : List Item
  pending : Option (Verdict × Bytes)

/-- A worker between two passes, or one that has stopped. -/
def Worker.idle : Worker := ⟨[], none⟩

/-- A result that was reported: of which row, and whether the lookup of its hosts had failed for
    the time being. -/
structure Report where
  id : Nat
  verdict : Verdict
  lookupFailed : Bool

/-- The queue, the clock, the next number, the workers, and what was reported so far. -/
structure System where
  rows : List Row
  now : Nat
  nextId : Nat
  workers : Nat → Worker
  log : List Report

def System.empty : System := ⟨[], 0, 0, fun _ => .idle, []⟩

def System.setWorker (sys : System) (w : Nat) (worker : Worker) : System :=
  { sys with workers := fun k => if k = w then worker else sys.workers k }

inductive Event
  | enqueue (fromAddr rcpt raw : Bytes)
  | wait (seconds : Nat)
  | claim (w : Nat)
  | deliver (w : Nat) (answer : Spf.Status × List MxHost) (reply : Bytes → SendStatus × Bytes)
  | mark (w : Nat) (succeeds : Bool)
  | stop (w : Nat)

/-- A step; a worker claims when its pass is over, and marks an item before it delivers the
    next. -/
def step (smarthost : Bytes) (sys : System) : Event → System
  | .enqueue fromAddr rcpt raw =>
    { sys with
      rows := enqueueOutbound sys.now sys.nextId fromAddr rcpt raw sys.rows
      nextId := sys.nextId + 1 }
  | .wait seconds => { sys with now := sys.now + seconds }
  | .claim w =>
    if (sys.workers w).items = [] then
      let claimed := claimOutboundDue sys.now 20 sys.rows
      ({ sys with rows := claimed.1 } : System).setWorker w ⟨claimed.2, none⟩
    else sys
  | .deliver w answer reply =>
    match sys.workers w with
    | ⟨it :: items, none⟩ =>
      let result := attempt smarthost answer reply it
      let lookupFailed := decide (smarthost = []) && decide (answer.1 = .tempFail)
      ({ sys with log := sys.log ++ [⟨it.id, result.1, lookupFailed⟩] } : System).setWorker w
        ⟨it :: items, some result⟩
    | _ => sys
  | .mark w succeeds =>
    match sys.workers w with
    | ⟨it :: items, some result⟩ =>
      let rows := if succeeds then mark sys.now it result sys.rows else sys.rows
      ({ sys with rows := rows } : System).setWorker w ⟨items, none⟩
    | _ => sys
  | .stop w => sys.setWorker w .idle

/-- The system after a run from an empty queue. -/
def run (smarthost : Bytes) (events : List Event) : System :=
  events.foldl (step smarthost) System.empty

end QuackMail.Relay

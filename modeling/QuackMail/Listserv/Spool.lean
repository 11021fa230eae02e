import QuackMail.Delivery.LocalDeliver
import QuackMail.Listserv.Subscriptions
import QuackMail.Store.Interleave

/-! # The spooler

`Approve`, `SpoolRoom` and `SpoolOnce` of `listserv.cpp`, over the sessions that post into
and delete from the rooms meanwhile.  `InsertMessage` is split where its number is drawn and
where it commits; a pass of the spooler is one step.  What is queued is the message or the
digest itself, not its rendering.
-/

namespace QuackMail.Listserv

open Citadel

/-! ## The state -/

inductive HeldState where
  | held
  | approved
  | rejected
  deriving DecidableEq

/-- A row of `citadel_list_held`. -/
structure Held where
  id : Nat
  roomNum : Nat
  mailFrom : Bytes
  raw : Bytes
  state : HeldState

/-- What a queued letter is rendered from. -/
inductive Copy where
  /-- `RenderForList` -/
  | post (list : MailList) (msg : Message)
  /-- the head of a digest and `BuildDigest` -/
  | digest (list : MailList) (msgs : List Message) (now : Int)

/-- A row `EnqueueOutbound` adds. -/
structure Queued where
  fromAddr : Bytes
  rcpt : Bytes
  copy : Copy

/-- A session, and the held message it approves. -/
structure Job where
  session : Citadel.Session
  approves : Option Nat

structure Host where
  tables : Tables
  jobs : Nat → Job
  desk : Desk
  held : List Held
  queue : List Queued

def Host.store (h : Host) : Store := h.tables.dir.store

def Host.withStore (h : Host) (s : Store) : Host :=
  { h with tables := { h.tables with dir := { h.tables.dir with store := s } } }

/-- `SpoolResult`. -/
structure SpoolResult where
  distributed : Nat
  recipients : Nat
  digests : Nat
  held : Nat

/-- What a pass takes from outside its tables. -/
structure Tick where
  now : Int
  fqdn : Bytes

/-! ## `SpoolRoom` -/

/-- `BounceAddress`. -/
def bounceAddress (c : Tick) (list : MailList) : Bytes :=
  list.address ++ bytes "-bounces@" ++ c.fqdn

/-- `RoomMessages` with the filter `"gt"`. -/
def roomMessagesAfter (s : Store) (roomNum mark : Nat) : List Nat :=
  (roomMessages s roomNum).filter (mark < ·)

/-- The active subscribers of a kind. -/
def recipients (desk : Desk) (roomNum : Nat) (kind : SubKind) : List SubRow :=
  (subscribers desk roomNum .active).filter fun s => s.kind = kind

/-- An `UPDATE` of a row of `citadel_lists`. -/
def updateList (t : Tables) (roomNum : Nat) (f : MailList → MailList) : Tables :=
  { t with lists := t.lists.map fun l => if l.roomNum = roomNum then f l else l }

def sendsPosts (list : MailList) : Bool := list.mode = .post ∨ list.mode = .both

def sendsDigests (list : MailList) : Bool := list.mode = .digest ∨ list.mode = .both

/-- The messages a pass fans out. -/
def fresh (s : Store) (list : MailList) : List Message :=
  (roomMessagesAfter s list.roomNum list.lastSent).filterMap (loadMessage s)

def postRows (c : Tick) (h : Host) (list : MailList) : List Queued :=
  (fresh h.store list).flatMap fun msg =>
    (recipients h.desk list.roomNum .post).map fun s =>
      ⟨bounceAddress c list, s.address, .post list msg⟩

/-- The highest number a fan-out meets. -/
def highSent (s : Store) (list : MailList) : Nat :=
  (roomMessagesAfter s list.roomNum list.lastSent).foldl max list.lastSent

/-- The immediate fan-out: every message to every post subscriber, then the watermark. -/
def fanOut (c : Tick) (h : Host) (list : MailList) (out : SpoolResult) : Host × SpoolResult :=
  let rows := postRows c h list
  let high := highSent h.store list
  let out :=
    { out with
      recipients := out.recipients + rows.length
      distributed := out.distributed +
        if recipients h.desk list.roomNum .post = [] then 0 else (fresh h.store list).length }
  let queue := h.queue ++ rows
  if high ≠ list.lastSent then
    ({ h with
        queue := queue
        tables := updateList h.tables list.roomNum fun l => { l with lastSent := high } }, out)
  else ({ h with queue := queue }, out)

def isDue (c : Tick) (list : MailList) : Bool :=
  list.lastDigestAt = 0 ∨ list.digestIntervalSecs ≤ c.now - list.lastDigestAt

/-- The loop that fills a digest; what is over `digestMax` rides in the next one. -/
def pick (s : Store) (digestMax : Int) :
    List Message → Nat → List Nat → List Message × Nat
  | msgs, high, [] => (msgs, high)
  | msgs, high, msgnum :: rest =>
    if digestMax ≤ msgs.length then (msgs, high)
    else
      match loadMessage s msgnum with
      | some m => pick s digestMax (msgs ++ [m]) (max high msgnum) rest
      | none => pick s digestMax msgs high rest

/-- The numbers past the digest watermark. -/
def pending (s : Store) (list : MailList) : List Nat :=
  roomMessagesAfter s list.roomNum list.lastDigest

/-- The messages that fill the next digest, and the new watermark. -/
def picked (s : Store) (list : MailList) : List Message × Nat :=
  pick s list.digestMax [] list.lastDigest (pending s list)

def digestRows (c : Tick) (h : Host) (list : MailList) : List Queued :=
  (recipients h.desk list.roomNum .digest).map fun s =>
    ⟨bounceAddress c list, s.address, .digest list (picked h.store list).1 c.now⟩

/-- The digest half of a pass. -/
def sendDigest (c : Tick) (h : Host) (list : MailList) (out : SpoolResult) : Host × SpoolResult :=
  if isDue c list ∧ pending h.store list ≠ [] then
    let rows := digestRows c h list
    let tables := updateList h.tables list.roomNum fun l =>
      { l with lastDigest := (picked h.store list).2, lastDigestAt := c.now }
    if (picked h.store list).1 ≠ [] ∧ recipients h.desk list.roomNum .digest ≠ [] then
      ({ h with tables := tables, queue := h.queue ++ rows },
        { out with recipients := out.recipients + rows.length, digests := out.digests + 1 })
    else ({ h with tables := tables }, out)
  else (h, out)

/-- `HeldMessages` of a room, in the state `"held"`. -/
def heldMessages (h : Host) (roomNum : Nat) : List Held :=
  (h.held.filter fun m => m.roomNum = roomNum ∧ m.state = .held).insertionSort
    fun a b => a.id ≤ b.id

/-- `SpoolRoom`. -/
def spoolRoom (c : Tick) (h : Host) (roomNum : Nat) (out : SpoolResult) :
    Host × Except Bytes SpoolResult :=
  match getList h.tables roomNum with
  | none => (h, .error (bytes "no such list"))
  | some list =>
    if !list.enabled then (h, .ok out)
    else
      let r := if sendsPosts list then fanOut c h list out else (h, out)
      let r := if sendsDigests list then sendDigest c r.1 list r.2 else r
      (r.1, .ok { r.2 with held := r.2.held + (heldMessages r.1 roomNum).length })

/-! ## The run -/

inductive Action where
  /-- session `k` calls `InsertMessage` -/
  | insert (k : Nat) (msg : Message) (rooms : List Nat)
  /-- session `k` calls `Approve` -/
  | approve (k id : Nat)
  /-- session `k` calls `DeleteMessage` -/
  | delete (k roomNum msgnum : Nat)
  /-- session `k` takes its next step -/
  | next (k : Nat) (w : World)
  /-- session `k` stops at a statement that fails; a transaction is rolled back -/
  | stop (k : Nat)
  | move (w : World) (fromRoom toRoom msgnum : Nat) (isCopy : Bool)
  /-- a message is held for moderation -/
  | hold (m : Held)
  /-- the subscriptions change; their key is the room and the address -/
  | subscriptions (desk : Desk)
      (key : (desk.subs.map fun r => (r.roomNum, r.address)).Nodup)
  | spool (c : Tick) (roomNum : Nat)

def Host.start (h : Host) (k : Nat) (job : Job) : Host :=
  if (h.jobs k).session = .done then { h with jobs := Function.update h.jobs k job } else h

/-- The held message that `Approve` reads. -/
def findHeld (h : Host) (id : Nat) : Option Held :=
  h.held.find? fun m => m.id = id ∧ m.state = .held

/-- `UPDATE citadel_list_held SET state = 'approved'`, once the session has posted. -/
def markApproved (job : Job) (held : List Held) : List Held :=
  match job.session, job.approves with
  | .drawn _ _, some id => held.map fun m => if m.id = id then { m with state := .approved } else m
  | _, _ => held

/-- One step; `compose` is how a delivery reads a held message. -/
def act (compose : Held → Message) (h : Host) : Action → Host
  | .insert k msg rooms => h.start k ⟨.insert msg rooms, none⟩
  | .approve k id =>
    match findHeld h id with
    | some m => h.start k ⟨.insert (compose m) [m.roomNum], some id⟩
    | none => h
  | .delete k roomNum msgnum => h.start k ⟨.delete roomNum msgnum, none⟩
  | .next k w =>
    let job := h.jobs k
    let r := advance w h.store job.session
    { h.withStore r.1 with
      jobs := Function.update h.jobs k ⟨r.2, job.approves⟩
      held := markApproved job h.held }
  | .stop k => { h with jobs := Function.update h.jobs k ⟨.done, none⟩ }
  | .move w fromRoom toRoom msgnum isCopy =>
    h.withStore (moveMessage w h.store fromRoom toRoom msgnum isCopy).1
  | .hold m => { h with held := h.held ++ [m] }
  | .subscriptions desk _ => { h with desk := desk }
  | .spool c roomNum => (spoolRoom c h roomNum ⟨0, 0, 0, 0⟩).1

def runAll (compose : Held → Message) (h : Host) (acts : List Action) : Host :=
  acts.foldl (act compose) h

/-- `SpoolOnce`: one pass over every enabled list, by room. -/
def enabledLists (t : Tables) : List MailList :=
  (t.lists.filter fun l => l.enabled).insertionSort fun a b => a.roomNum ≤ b.roomNum

def spoolOnce (c : Tick) (h : Host) : Host :=
  (enabledLists h.tables).foldl (fun h l => (spoolRoom c h l.roomNum ⟨0, 0, 0, 0⟩).1) h

theorem spoolOnce_eq (compose : Held → Message) (c : Tick) (h : Host) :
    spoolOnce c h =
      runAll compose h ((enabledLists h.tables).map fun l => .spool c l.roomNum) := by
  rw [spoolOnce, runAll, List.foldl_map]
  rfl

/-- `Approve` hands the held message to a delivery without recipients, which inserts it into
    the room of the list. -/
theorem localDeliver_held (o : Delivery.Outside) (site : Delivery.Site) (m : Held)
    (opts : Delivery.Options) (hrooms : opts.extraRooms = [(m.roomNum : Int)]) :
    (Delivery.localDeliver o site m.mailFrom [] m.raw opts).1.dir.store =
      (insertMessage o.world site.dir.store (Delivery.compose o m.mailFrom m.raw [])
        [m.roomNum]).1 := by
  have hroomsOf : Delivery.roomsOf opts [] = [m.roomNum] := by
    simp [Delivery.roomsOf, hrooms, List.eraseDups_cons]
  unfold Delivery.localDeliver
  simp only [Delivery.turns, hroomsOf, List.cons_ne_nil, if_false]
  cases hinsert : insertMessage o.world site.dir.store
      (Delivery.compose o m.mailFrom m.raw []) [m.roomNum] with
  | mk store answer =>
    cases answer with
    | error err => rfl
    | ok msgnum =>
      simp only [Delivery.receive]
      split <;> rfl

end QuackMail.Listserv

import QuackMail.Delivery.LocalDeliver
import QuackMail.Listserv.Subscriptions
import QuackMail.Policy.Alias

/-! # Inbound transactions

The routing of a recipient at `RCPT` and what `HandleInbound` does behind `DATA`, for the MX
listener and for LMTP: list traffic is settled and forwards are enqueued, then there is one
`LocalDeliver` for all recipients, and its verdicts become the replies.  The submission listener
answers for `submission::Send`.
-/

namespace QuackMail.Delivery

open Citadel Listserv

/-- A reply line: its code and what follows it. -/
structure Answer where
  code : Nat
  text : Bytes
  deriving DecidableEq

/-- 2xx. -/
def Answer.accepts (a : Answer) : Bool := decide (a.code / 100 = 2)

/-- 4xx or 5xx. -/
def Answer.refuses (a : Answer) : Bool := decide (a.code / 100 = 4) || decide (a.code / 100 = 5)

/-! ## Recipients -/

/-- `Recipient`; a list comes with the command that its address stands for. -/
structure Recipient where
  envelope : Bytes
  destinations : List Bytes
  forwards : List Bytes
  rooms : List Int
  detail : Bytes
  list : Option (MailList × Command)
  listHold : Bool
  deriving DecidableEq

/-- `Deliverable`. -/
def Recipient.deliverable (r : Recipient) : Bool :=
  !r.destinations.isEmpty || !r.forwards.isEmpty || !r.rooms.isEmpty || r.list.isSome

/-- What `RCPT` reads: the tables of the aliases, lists and accounts, the configuration, and the
    directory's answers on hosted domains and on room addresses. -/
structure Routing where
  aliases : List Policy.Alias
  lists : Tables
  desk : Desk
  fqdn : Bytes
  listserv : Bool
  roomMail : Bool
  subaddressSep : Bytes
  isLocalDomain : Bytes → Bool
  resolveMailRoom : Bytes → Int

/-- `IsLocalUser`. -/
def isLocalUser (d : Directory) (fqdn addr : Bytes) : Bool :=
  let domain := (addr.dropWhile (· ≠ ch '@')).drop 1
  (domain.isEmpty || fqdn.isEmpty || decide (lower domain = lower fqdn)) &&
    decide (0 < (getOrAssignUserNum d (localPart addr)).2)

/-- Whether the list takes a post from the sender. -/
def mayPost (rt : Routing) (mailFrom : Bytes) (l : MailList) : Bool :=
  decide (l.postPolicy = .anyone) ||
    (decide (l.postPolicy = .subscribers) && isSubscriber rt.desk l.roomNum mailFrom)

/-- The part of a list address. -/
def routeList (rt : Routing) (mailFrom : Bytes) (r : Recipient) : Recipient :=
  if rt.listserv then
    match resolveAddress rt.lists (localPart r.envelope) with
    | none => r
    | some (l, cmd) =>
      if cmd.kind = .post then
        if mayPost rt mailFrom l then
          { r with list := some (l, cmd), rooms := r.rooms ++ [(l.roomNum : Int)] }
        else { r with list := some (l, cmd), listHold := true }
      else { r with list := some (l, cmd) }
  else r

/-- The part of a room address. -/
def routeRoom (rt : Routing) (r : Recipient) : Recipient :=
  if r.list.isNone then
    let room := if rt.roomMail then rt.resolveMailRoom (localPart r.envelope) else -1
    if room ≥ 0 then { r with rooms := r.rooms ++ [room] } else r
  else r

/-- `expand_into`: the destinations and forwards of an address are added. -/
def expandInto (rt : Routing) (addr : Bytes) (r : Recipient) : Recipient × Bool :=
  let isLocal := isLocalUser rt.lists.dir rt.fqdn
  let expanded := Policy.expandAlias rt.lists.dir.sqlLower rt.aliases addr
  let r' : Recipient :=
    { r with
      destinations := r.destinations ++ expanded.filter isLocal ++
        if expanded.isEmpty && isLocal addr then [addr] else []
      forwards := r.forwards ++ expanded.filter fun dest => !isLocal dest }
  (r', !r'.destinations.isEmpty || !r'.forwards.isEmpty)

/-- The part of a subaddress. -/
def routeDetail (rt : Routing) (r : Recipient) : Recipient :=
  let user := localPart r.envelope
  match if rt.subaddressSep = [] then none else find rt.subaddressSep user with
  | none => r
  | some cut =>
    let domain := Policy.domainOf r.envelope
    let base := user.take cut ++ if domain = [] then [] else ch '@' :: domain
    let expanded := expandInto rt base r
    if expanded.2 then
      { expanded.1 with detail := user.drop (cut + rt.subaddressSep.length) }
    else expanded.1

/-- What `RCPT` finds for an address: a list, a room, users and forwards. -/
def resolve (rt : Routing) (mailFrom rcpt : Bytes) : Recipient :=
  let r := routeRoom rt (routeList rt mailFrom ⟨rcpt, [], [], [], [], none, false⟩)
  if r.rooms = [] then
    let expanded := expandInto rt rcpt r
    if expanded.2 then expanded.1 else routeDetail rt expanded.1
  else r

/-- `RCPT`: the recipient, or the refusal. -/
def route (rt : Routing) (mailFrom rcpt : Bytes) : Except Answer Recipient :=
  let domain := Policy.domainOf rcpt
  if domain ≠ [] ∧ rt.isLocalDomain domain = false then
    .error ⟨550, bytes "5.7.1 Relaying denied"⟩
  else
    let r := resolve rt mailFrom rcpt
    if r.deliverable = false then .error ⟨550, bytes "5.1.1 No such user here"⟩
    else if r.destinations ≠ [] ∧
        r.destinations.all fun dest => isOver rt.lists.dir.store (localPart dest) then
      .error ⟨452, bytes "4.2.2 Mailbox full"⟩
    else .ok r

/-! ## Behind `DATA` -/

/-- A post that is held: the list, the sender and the message. -/
structure HeldPost where
  list : MailList
  mailFrom : Bytes
  raw : Bytes

/-- A call of `HandleCommand`. -/
structure CommandCall where
  list : MailList
  command : Command
  mailFrom : Bytes
  body : Bytes

/-- What came of a transaction. -/
structure Dispatch where
  site : Site
  held : List HeldPost
  commands : List CommandCall
  outcome : Outcome

/-- The post of a recipient that is held. -/
def Recipient.holds (mailFrom stored : Bytes) (r : Recipient) : List HeldPost :=
  match r.list with
  | some (l, cmd) => if cmd.kind = .post ∧ r.listHold = true then [⟨l, mailFrom, stored⟩] else []
  | none => []

/-- The command of a recipient that is executed. -/
def Recipient.executes (mailFrom body : Bytes) (r : Recipient) : List CommandCall :=
  match r.list with
  | some (l, cmd) => if cmd.kind = .post then [] else [⟨l, cmd, mailFrom, body⟩]
  | none => []

/-- The forwards of recipient `i`; `fails i j` is the statement for forward `j`. -/
def forwardRows (fails : Nat → Nat → Bool) (mailFrom stored : Bytes) (i : Nat) (r : Recipient) :
    List Outbound :=
  r.forwards.zipIdx.filterMap fun f =>
    if fails i f.2 then none else some ⟨mailFrom, f.1, stored⟩

/-- `enqueue_forwards` for all recipients. -/
def enqueueForwards (fails : Nat → Nat → Bool) (mailFrom stored : Bytes)
    (rcpts : List Recipient) (site : Site) : Site :=
  { site with
    outbound := site.outbound ++
      rcpts.zipIdx.flatMap fun r => forwardRows fails mailFrom stored r.2 r.1 }

/-- What the listener sets for the delivery. -/
structure Knobs where
  folderOverride : Bytes
  subaddressSep : Bytes
  subaddressCreate : Bool

/-- The local users of all recipients. -/
def targetsOf (rcpts : List Recipient) : List Bytes := rcpts.flatMap Recipient.destinations

def optionsOf (knobs : Knobs) (rcpts : List Recipient) : Options where
  folderOverride := knobs.folderOverride
  extraRooms := rcpts.flatMap Recipient.rooms
  subaddress := rcpts.flatMap fun r =>
    if r.detail = [] then [] else r.destinations.map fun dest => (dest, r.detail)
  subaddressSep := knobs.subaddressSep
  subaddressCreate := knobs.subaddressCreate

/-- An outcome before any delivery. -/
def Outcome.new : Outcome := ⟨true, [], none, [], [], []⟩

/-- The delivery of a transaction. -/
def dispatch (o : Outside) (fails : Nat → Nat → Bool) (knobs : Knobs)
    (mailFrom stored body : Bytes) (rcpts : List Recipient) (site : Site) : Dispatch :=
  let forwarded := enqueueForwards fails mailFrom stored rcpts site
  let opts := optionsOf knobs rcpts
  let delivered :=
    if targetsOf rcpts = [] ∧ opts.extraRooms = [] then (forwarded, Outcome.new)
    else localDeliver o forwarded mailFrom (targetsOf rcpts) stored opts
  ⟨delivered.1, rcpts.flatMap (Recipient.holds mailFrom stored),
    rcpts.flatMap (Recipient.executes mailFrom body), delivered.2⟩

/-! ## Replies -/

/-- The loop of `reject_reason` over the destinations. -/
def rejectLoop (rejected : List (Bytes × Bytes)) : List Bytes → Bytes → Bytes
  | [], reason => reason
  | dest :: dests, _ =>
    match rejected.find? fun rej => decide (rej.1 = dest) with
    | none => []
    | some rej => rejectLoop rejected dests rej.2

/-- `reject_reason`. -/
def rejectReason (out : Outcome) (r : Recipient) : Bytes :=
  if r.destinations = [] then [] else rejectLoop out.rejected r.destinations []

/-- `over_quota`. -/
def overQuotaFor (out : Outcome) (r : Recipient) : Bool :=
  !r.destinations.isEmpty && r.destinations.all fun dest => decide (dest ∈ out.overQuota)

/-- `list_detail`. -/
def listDetail (r : Recipient) : Bytes :=
  match r.list with
  | none => []
  | some (l, cmd) =>
    if cmd.kind ≠ .post then bytes "list command accepted"
    else if r.listHold then bytes "held for moderation"
    else bytes "posted to list " ++ l.address

/-- The reply of the LMTP listener for a recipient. -/
def lmtpAnswer (out : Outcome) (r : Recipient) : Answer :=
  let refused := if out.ok then rejectReason out r else []
  let full := out.ok && decide (refused = []) && overQuotaFor out r
  let named := bytes "<" ++ r.envelope ++ bytes "> "
  if out.ok = false then ⟨451, bytes "4.3.0 " ++ named ++ bytes "local storage error"⟩
  else if full then ⟨452, bytes "4.2.2 " ++ named ++ bytes "mailbox full"⟩
  else if refused ≠ [] then ⟨550, bytes "5.7.1 " ++ named ++ refused⟩
  else if listDetail r ≠ [] then ⟨250, bytes "2.0.0 " ++ named ++ listDetail r⟩
  else if r.rooms ≠ [] ∧ r.destinations = [] then
    ⟨250, bytes "2.0.0 " ++ named ++ bytes "delivered to room"⟩
  else if r.destinations = [] then ⟨250, bytes "2.0.0 " ++ named ++ bytes "forwarded"⟩
  else ⟨250, bytes "2.0.0 " ++ named ++ bytes "delivered"⟩

/-- The replies of the LMTP listener behind `DATA`. -/
def lmtpAnswers (out : Outcome) (rcpts : List Recipient) : List Answer :=
  rcpts.map (lmtpAnswer out)

/-- The reply of the MX listener behind `DATA`. -/
def mxAnswer (out : Outcome) (rcpts : List Recipient) : Answer :=
  let allFull := !rcpts.isEmpty && rcpts.all (overQuotaFor out)
  if out.ok = false then ⟨451, bytes "4.3.0 Local storage error"⟩
  else if allFull then ⟨452, bytes "4.2.2 Mailbox full"⟩
  else
    match out.rejected with
    | rej :: _ => ⟨550, bytes "5.7.1 " ++ rej.2⟩
    | [] => ⟨250, bytes "2.0.0 OK: message accepted"⟩

/-! ## Submission -/

/-- `submission::Send` of a message that is stamped and signed: the remote recipients are
    enqueued, then there is one delivery for the local ones. -/
def sendMessage (o : Outside) (fails : Nat → Bool) (fqdn mailFrom full : Bytes)
    (rcpts : List Bytes) (site : Site) : Site × Outcome :=
  let isLocal := isLocalUser site.dir fqdn
  let queued := rcpts.zipIdx.filterMap fun r =>
    if isLocal r.1 || fails r.2 then none else some (⟨mailFrom, r.1, full⟩ : Outbound)
  let site : Site := { site with outbound := site.outbound ++ queued }
  if rcpts.filter isLocal = [] then (site, Outcome.new)
  else
    localDeliver o site mailFrom (rcpts.filter isLocal) full ⟨[], [], [], bytes "+", false⟩

/-- The reply of the submission listener behind the message. -/
def submissionAnswer (out : Outcome) : Answer :=
  if out.ok then ⟨250, bytes "OK: message accepted"⟩ else ⟨451, bytes "Local storage error"⟩

end QuackMail.Delivery

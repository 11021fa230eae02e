import QuackMail.Net.DotWriters
import QuackMail.Store.Expiry
import Mathlib.Algebra.GroupWithZero.Nat

/-! # POP3 sessions

`HandlePop3` over the store: a session takes a snapshot of the mailbox when it logs in, answers
from it, and deletes at `QUIT`.  The store is shared: between two commands others deliver and
delete.
-/

namespace QuackMail.Pop3

open Citadel Net

/-- What does not change in a session: the rendering of messages, the names in replies, whether
    `STLS` is offered, and the mail room of a user (`GetOrCreateMailRoom`, none for -1). -/
structure Config where
  node : Bytes
  version : Bytes
  startTlsEnabled : Bool
  renderNative : Message → Bytes → Bytes
  mailRoom : Bytes → Option Nat

/-- `RenderRfc822`. -/
def Config.renderRfc822 (cfg : Config) (msg : Message) : Bytes :=
  if msg.formatType = 4 then msg.raw else cfg.renderNative msg cfg.node

/-- `Entry`: a message of the snapshot. -/
structure Entry where
  msgnum : Nat
  size : Nat
  deleted : Bool

/-- `Maildrop`; `last` is the index of the last message that was read, -1 for none. -/
structure Maildrop where
  msgs : List Entry
  last : Int

/-- The tables, with the last message each user has read in a room. -/
structure Db where
  store : Store
  lastRead : Bytes → Nat → Nat

/-- The variables of `HandlePop3`, and whether it has returned. -/
structure Session where
  pendingUser : Bytes
  user : Bytes
  authed : Bool
  drop : Maildrop
  tls : Bool
  ended : Bool

/-- A connection that was just accepted. -/
def Session.fresh (tls : Bool) : Session := ⟨[], [], false, ⟨[], -1⟩, tls, false⟩

structure State where
  db : Db
  session : Session

/-- What a command finds outside the session: the number of a user, whether a password is
    right, whether a TLS handshake succeeds, and the clock. -/
structure Env where
  userNum : Bytes → Int
  verify : Bytes → Bytes → Bool
  handshake : Bool
  world : World

/-- The replies, with the messages they are about. -/
inductive Reply
  | say (line : Bytes)
  | capa (version : Bytes)
  | stat (count total : Nat)
  | scan (uidl : Bool) (which : Nat) (e : Entry)
  | listing (uidl : Bool) (entries : List (Nat × Entry))
  | text (which : Nat) (raw : Bytes) (lines : Int)

section Commands

variable (cfg : Config)

/-- The loop of `LoadMaildrop`. -/
def loadEntries (s : Store) (lastRead : Nat) : List Nat → Maildrop → Maildrop
  | [], drop => drop
  | m :: ms, drop =>
    match loadMessage s m with
    | none => loadEntries s lastRead ms drop
    | some msg =>
      loadEntries s lastRead ms
        { msgs := drop.msgs ++ [⟨m, (cfg.renderRfc822 msg).length, false⟩]
          last := if m ≤ lastRead then drop.msgs.length else drop.last }

/-- `LoadMaildrop`. -/
def loadMaildrop (db : Db) (username : Bytes) : Maildrop :=
  match cfg.mailRoom username with
  | none => ⟨[], -1⟩
  | some room =>
    loadEntries cfg db.store (db.lastRead username room) (roomMessages db.store room) ⟨[], -1⟩

/-- `DeleteMessage` of the messages that are marked. -/
def deleteMarked (w : World) (room : Nat) : List Entry → Store → Store
  | [], s => s
  | e :: es, s =>
    if e.deleted then deleteMarked w room es (deleteMessage w s room e.msgnum).1
    else deleteMarked w room es s

/-- `SetLastRead`. -/
def setLastRead (db : Db) (username : Bytes) (room msgnum : Nat) : Db :=
  { db with lastRead := fun u r =>
      if u = username ∧ r = room then msgnum else db.lastRead u r }

/-- `ApplyUpdate`. -/
def applyUpdate (w : World) (user : Bytes) (drop : Maildrop) (db : Db) : Db :=
  match cfg.mailRoom user with
  | none => db
  | some room =>
    let db := { db with store := deleteMarked w room drop.msgs db.store }
    match drop.msgs.getLast? with
    | none => db
    | some e => setLastRead db user room e.msgnum

/-- The entry a 1-based argument names, if it names one. -/
def entryAt (drop : Maildrop) (idx : Int) : Option Entry :=
  if idx < 1 then none else drop.msgs[(idx - 1).toNat]?

/-- The messages that are not marked, with their numbers. -/
def unmarked (drop : Maildrop) : List (Nat × Entry) :=
  (drop.msgs.zipIdx 1).filterMap fun e => if e.1.deleted then none else some (e.2, e.1)

/-- Mark a message. -/
def Maildrop.mark (drop : Maildrop) (idx : Int) : Maildrop :=
  { drop with msgs := drop.msgs.modify (idx - 1).toNat fun e => { e with deleted := true } }

/-- Unmark every message. -/
def Maildrop.reset (drop : Maildrop) : Maildrop :=
  { drop with msgs := drop.msgs.map fun e => { e with deleted := false } }

/-- The verb of a line in upper case, and what is behind the space. -/
def splitLine (line : Bytes) : Bytes × Bytes :=
  match findChar (ch ' ') line with
  | none => (upper line, [])
  | some sp => (upper (line.take sp), line.drop (sp + 1))

/-- `USER`. -/
def userCommand (env : Env) (rest : Bytes) (st : State) : State × Reply :=
  if st.session.authed then (st, .say (bytes "-ERR You are already logged in."))
  else if env.userNum rest ≤ 0 then (st, .say (bytes "-ERR No such user."))
  else
    ({ st with session := { st.session with pendingUser := rest } },
      .say (bytes "+OK Password required for " ++ rest))

/-- `PASS`: also in a session that is logged in. -/
def passCommand (env : Env) (rest : Bytes) (st : State) : State × Reply :=
  if st.session.pendingUser = [] then (st, .say (bytes "-ERR That is NOT the password."))
  else if env.verify st.session.pendingUser rest = false then
    (st, .say (bytes "-ERR That is NOT the password."))
  else
    let drop := loadMaildrop cfg st.db st.session.pendingUser
    ({ st with session :=
        { st.session with user := st.session.pendingUser, authed := true, drop := drop } },
      .say (bytes "+OK " ++ st.session.pendingUser ++ bytes " is logged in (" ++
        num drop.msgs.length ++ bytes " messages)"))

/-- `STLS`. -/
def stlsCommand (env : Env) (st : State) : State × Reply :=
  if st.session.tls || !cfg.startTlsEnabled then
    (st, .say (bytes "-ERR TLS not supported here"))
  else
    ({ st with session := { st.session with tls := env.handshake, ended := !env.handshake } },
      .say (bytes "+OK Begin TLS negotiation now"))

/-- `QUIT`. -/
def quitCommand (env : Env) (st : State) : State × Reply :=
  ({ db := if st.session.authed then
        applyUpdate cfg env.world st.session.user st.session.drop st.db else st.db
     session := { st.session with ended := true } }, .say (bytes "+OK Goodbye..."))

/-- `STAT`. -/
def statReply (drop : Maildrop) : Reply :=
  .stat (unmarked drop).length ((unmarked drop).map fun e => e.2.size).sum

/-- `LIST` and `UIDL`. -/
def listReply (uidl : Bool) (rest : Bytes) (drop : Maildrop) : Reply :=
  let which := strtoll rest
  if which > 0 then
    match entryAt drop which with
    | none => .say (bytes "-ERR no such message, only " ++ num drop.msgs.length ++
        bytes " are here")
    | some e =>
      if e.deleted then .say (bytes "-ERR Sorry, you deleted that message.")
      else .scan uidl which.toNat e
  else .listing uidl (unmarked drop)

/-- The arguments of `RETR` and `TOP`: the message, and the lines of the body, all if negative. -/
def textArgs (top : Bool) (rest : Bytes) : Bytes × Int :=
  if top then
    match findChar (ch ' ') rest with
    | none => (rest, 0)
    | some gap => (rest.take gap, strtoll (rest.drop (gap + 1)))
  else (rest, -1)

/-- `RETR` and `TOP`. -/
def textReply (top : Bool) (rest : Bytes) (st : State) : Reply :=
  let (whichArg, lines) := textArgs top rest
  match entryAt st.session.drop (strtoll whichArg) with
  | none => .say (bytes "-ERR No such message.")
  | some e =>
    if e.deleted then .say (bytes "-ERR Sorry, you deleted that message.")
    else
      match loadMessage st.db.store e.msgnum with
      | none => .say (bytes "-ERR No such message.")
      | some msg => .text (strtoll whichArg).toNat (cfg.renderRfc822 msg) lines

/-- `DELE`. -/
def deleCommand (rest : Bytes) (st : State) : State × Reply :=
  let idx := strtoll rest
  match entryAt st.session.drop idx with
  | none => (st, .say (bytes "-ERR No such message."))
  | some e =>
    if e.deleted then (st, .say (bytes "-ERR You already deleted that message."))
    else
      ({ st with session := { st.session with drop := st.session.drop.mark idx } },
        .say (bytes "+OK Message " ++ numInt idx ++ bytes " deleted."))

/-- A command of a session that is logged in. -/
def authedCommand (verb rest : Bytes) (st : State) : State × Reply :=
  if verb = bytes "STAT" then (st, statReply st.session.drop)
  else if verb = bytes "LIST" then (st, listReply false rest st.session.drop)
  else if verb = bytes "UIDL" then (st, listReply true rest st.session.drop)
  else if verb = bytes "RETR" then (st, textReply cfg false rest st)
  else if verb = bytes "TOP" then (st, textReply cfg true rest st)
  else if verb = bytes "DELE" then deleCommand rest st
  else if verb = bytes "RSET" then
    ({ st with session := { st.session with drop := st.session.drop.reset } },
      .say (bytes "+OK Reset completed."))
  else if verb = bytes "LAST" then (st, .say (bytes "+OK " ++ numInt (st.session.drop.last + 1)))
  else (st, .say (bytes "-ERR I'm afraid I can't do that."))

/-- One round of the loop of `HandlePop3`. -/
def handle (env : Env) (line : Bytes) (st : State) : State × Reply :=
  let (verb, rest) := splitLine line
  if verb = bytes "NOOP" then (st, .say (bytes "+OK No operation."))
  else if verb = bytes "CAPA" then (st, .capa cfg.version)
  else if verb = bytes "QUIT" then quitCommand cfg env st
  else if verb = bytes "USER" then userCommand env rest st
  else if verb = bytes "PASS" then passCommand cfg env rest st
  else if verb = bytes "STLS" then stlsCommand cfg env st
  else if st.session.authed = false then (st, .say (bytes "-ERR Not logged in."))
  else authedCommand cfg verb rest st

/-! ## Runs -/

/-- What others do to the store. -/
inductive Other
  | deliver (w : World) (msg : Message) (rooms : List Nat)
  | delete (w : World) (room msgnum : Nat)
  | expire (w : World)

def Other.apply : Other → Store → Store
  | .deliver w msg rooms, s => (insertMessage w s msg rooms).1
  | .delete w room msgnum, s => (deleteMessage w s room msgnum).1
  | .expire w, s => (runExpiry w s).1

/-- A command of the session, or a step of another one. -/
inductive Event
  | command (env : Env) (line : Bytes)
  | other (o : Other)

/-- One event; a session that has ended takes no commands. -/
def step (st : State) : Event → State × List Reply
  | .command env line =>
    if st.session.ended then (st, [])
    else
      let r := handle cfg env line st
      (r.1, [r.2])
  | .other o => ({ st with db := { st.db with store := o.apply st.db.store } }, [])

/-- The state after a run. -/
def run (st : State) (events : List Event) : State :=
  events.foldl (fun st e => (step cfg st e).1) st

end Commands

end QuackMail.Pop3

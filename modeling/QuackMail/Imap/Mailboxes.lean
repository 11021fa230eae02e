import QuackMail.Imap.ReadOnly
import QuackMail.Store.Rights

/-! # Commands on any mailbox

All commands of a logged-in session of `HandleImap`, each with the mailbox it finds by its
name: those of `Session` and STATUS, CREATE, DELETE, RENAME and the commands on access lists.
-/

namespace QuackMail.Imap

open Citadel

/-! ## Mailboxes by name -/

def answered (roomNum : Int) : Option Nat := if roomNum < 0 then none else some roomNum.toNat

/-- `ResolveMailbox`: the inbox, or else the room behind the last slash. -/
def resolveMailbox (d : Directory) (user name : Bytes) : Directory × Option Nat :=
  if upper name = bytes "INBOX" ∨ upper (leafOf name) = bytes "INBOX" then
    let r := getOrCreateMailRoom d user
    (r.1, answered r.2)
  else
    let r := resolveRoom d user (leafOf name)
    (r.1, r.2.map Room.roomNum)

/-! ## Arguments -/

/-- The text of a quoted argument, and what follows its closing quote; a backslash that is
    not the last byte escapes the next one. -/
def quotedArg : Bool → Bytes → Bytes × Bytes
  | _, [] => ([], [])
  | escaped, c :: s =>
    if escaped = false ∧ c = ch '"' then ([], s)
    else if escaped = false ∧ c = ch '\\' ∧ s ≠ [] then quotedArg true s
    else
      let r := quotedArg false s
      (c :: r.1, r.2)

def imapArgsLoop : Nat → Bytes → List Bytes
  | 0, _ => []
  | fuel + 1, args =>
    match args.dropWhile (· == ch ' ') with
    | [] => []
    | c :: s =>
      if c = ch '"' then
        let r := quotedArg false s
        r.1 :: imapArgsLoop fuel r.2
      else
        (c :: s).takeWhile (· != ch ' ') :: imapArgsLoop fuel ((c :: s).dropWhile (· != ch ' '))

/-- `ImapArgs`: atoms and quoted texts. -/
def imapArgs (args : Bytes) : List Bytes := imapArgsLoop (args.length + 1) args

/-- `ImapQuote`. -/
def imapQuote (s : Bytes) : Bytes :=
  ch '"' :: s.flatMap (fun c => if c = ch '"' ∨ c = ch '\\' then [ch '\\', c] else [c]) ++ [ch '"']

/-- The name and the items of a STATUS. -/
def statusArgs (args : Bytes) : Bytes × Bytes :=
  match findChar (ch '(') args with
  | none => (unquoted (args.rdropWhile (· == ch ' ')), [])
  | some paren =>
    let name := unquoted ((args.take paren).rdropWhile (· == ch ' '))
    match findCharFrom (ch ')') args paren with
    | none => (name, upper (args.drop (paren + 1)))
    | some rp => (name, upper ((args.drop (paren + 1)).take (rp - paren - 1)))

/-- `UnquoteMailbox`. -/
def unquoteMailbox (s : Bytes) : Bytes := unquoted (trimBy (· == ch ' ') s)

/-! ## The tables -/

/-- The tables of all commands. -/
structure Host where
  realm : Realm
  flags : List FlagRow

def Host.server (h : Host) : Server := ⟨h.realm.dir.store, h.flags⟩

def Host.withDir (h : Host) (d : Directory) : Host := { h with realm := { h.realm with dir := d } }

def Host.withServer (h : Host) (v : Server) : Host :=
  { h.withDir { h.realm.dir with store := v.store } with flags := v.flags }

def Host.conn (h : Host) (s : Session) : Conn := ⟨h.server, s, [], true⟩

/-- What a command leaves: `found` are the tables in which it has found its mailbox, `reads`
    the rooms whose messages it has read. -/
structure Result where
  host : Host
  session : Session
  found : Realm
  reads : List Nat
  /-- the lines of the reply, without its tag; those of the commands of `Session` are not kept -/
  reply : List Bytes

/-! ## The commands -/

inductive AclCommand where
  | myRights
  | getAcl
  | listRights
  | setAcl
  | deleteAcl
  deriving DecidableEq

def AclCommand.name : AclCommand → Bytes
  | .myRights => bytes "MYRIGHTS"
  | .getAcl => bytes "GETACL"
  | .listRights => bytes "LISTRIGHTS"
  | .setAcl => bytes "SETACL"
  | .deleteAcl => bytes "DELETEACL"

inductive MailboxCommand where
  | noop
  | idle
  | status (args : Bytes)
  | getQuotaRoot (args : Bytes)
  | select (examine : Bool) (args : Bytes)
  | fetch (isUid : Bool) (args : Bytes)
  | store (isUid : Bool) (args : Bytes)
  | search (isUid : Bool) (args : Bytes)
  | transfer (isUid isMove : Bool) (body : Bytes)
  | create (args : Bytes)
  | delete (args : Bytes)
  | acl (cmd : AclCommand) (args : Bytes)
  | rename (args : Bytes)
  | append (args raw : Bytes)
  | expunge
  | close
  /-- a command that touches no room -/
  | other

/-- STATUS of the room that was found. -/
def statusReply (h : Host) (user name items : Bytes) (room : Nat) : List Bytes :=
  let uids := roomUids h.realm.dir.store room
  let unseen := (uids.filter (fun uid => seenFlag ∉ loadFlags h.server uid user)).length
  let values := [(bytes "MESSAGES", uids.length), (bytes "RECENT", 0),
    (bytes "UIDNEXT", uidNext h.realm.dir.store room), (bytes "UIDVALIDITY", room),
    (bytes "UNSEEN", unseen)]
  let resp := joinWith (ch ' ') ((values.filter (fun v => (find v.1 items).isSome)).map
    (fun v => v.1 ++ ch ' ' :: num v.2))
  [bytes "* STATUS " ++ imapQuote name ++ bytes " (" ++ resp ++ bytes ")",
    bytes "OK STATUS completed"]

/-- The rights a SETACL asks for: a leading sign edits what the identifier has. -/
def wantedRights (m : Realm) (room : Room) (identifier change : Bytes) : Bytes :=
  match change with
  | [] => []
  | sign :: named =>
    if sign = ch '+' ∨ sign = ch '-' then
      let cur := (listRights m room).foldl
        (fun cur e => if upper e.1 = upper identifier then e.2 else cur) []
      kAclRights.filter (fun c =>
        if sign = ch '+' then c ∈ cur ∨ c ∈ named else c ∈ cur ∧ c ∉ named)
    else change

/-- What the commands on access lists do to the room `room` that the first argument names. -/
def aclRoom (m : Realm) (user : Bytes) (room : Room) (cmd : AclCommand) (a : List Bytes) :
    Realm × List Bytes :=
  let mailbox := a.getD 0 []
  let done := bytes "OK " ++ cmd.name ++ bytes " completed"
  let rights := effectiveRights m user room
  -- the caller is numbered where its rights are derived
  let m := if anonymous user then m else { m with dir := (getOrAssignUserNum m.dir user).1 }
  if cmd = .myRights then
    (m, [bytes "* MYRIGHTS " ++ imapQuote mailbox ++ ch ' ' :: rights, done])
  else if ch 'a' ∉ rights then (m, [bytes "NO [NOPERM] you do not administer that mailbox"])
  else
    let set := fun (rights : Bytes) =>
      match setRights m room (a.getD 1 []) rights with
      | (m', .ok ()) => (m', [done])
      | (m', .error err) => (m', [bytes "NO " ++ err])
    match cmd with
    | .myRights => (m, [done])
    | .getAcl =>
      (m, [bytes "* ACL " ++ imapQuote mailbox ++
        (listRights m room).flatMap (fun e => ch ' ' :: imapQuote e.1 ++ ch ' ' :: e.2), done])
    | .listRights =>
      if a.length < 2 then (m, [bytes "BAD LISTRIGHTS needs a mailbox and an identifier"])
      else
        (m, [bytes "* LISTRIGHTS " ++ imapQuote mailbox ++ ch ' ' :: imapQuote (a.getD 1 []) ++
          bytes " \"\"" ++ kAclRights.flatMap (fun c => [ch ' ', c]), done])
    | .deleteAcl =>
      if a.length < 2 then (m, [bytes "BAD DELETEACL needs a mailbox and an identifier"])
      else set []
    | .setAcl =>
      if a.length < 3 then (m, [bytes "BAD SETACL needs a mailbox, an identifier and rights"])
      else set (wantedRights m room (a.getD 1 []) (a.getD 2 []))

/-- The commands on access lists. -/
def aclCommand (h : Host) (s : Session) (cmd : AclCommand) (args : Bytes) : Result :=
  match imapArgs args with
  | [] => ⟨h, s, h.realm, [], [bytes "BAD " ++ cmd.name ++ bytes " needs a mailbox name"]⟩
  | mailbox :: rest =>
    let r := resolveMailbox h.realm.dir s.user mailbox
    let h := h.withDir r.1
    match r.2.bind (getRoomByNum r.1.store) with
    | none => ⟨h, s, h.realm, [], [bytes "NO [NONEXISTENT] mailbox not found"]⟩
    | some room =>
      let done := aclRoom h.realm s.user room cmd (mailbox :: rest)
      ⟨{ h with realm := done.1 }, s, h.realm, [], done.2⟩

/-- RENAME: the display name is set, and nothing else of the room. -/
def renameRoom (d : Directory) (roomNum : Nat) (displayName : Bytes) : Directory :=
  { d with labels := d.labels.map (fun l =>
      if l.roomNum = roomNum then { l with displayName := displayName } else l) }

/-- One command. -/
def handle (w : World) (subject : Bytes → Bytes) (h : Host) (s : Session) : MailboxCommand → Result
  | .noop =>
    let c := noop (h.conn s)
    ⟨h.withServer c.server, c.session, h.realm, [], []⟩
  | .idle =>
    let c := idle [] (h.conn s)
    ⟨h.withServer c.server, c.session, h.realm, [], []⟩
  | .status args =>
    let a := statusArgs args
    let r := resolveMailbox h.realm.dir s.user a.1
    let h := h.withDir r.1
    match r.2 with
    | none => ⟨h, s, h.realm, [], [bytes "NO STATUS mailbox not found"]⟩
    | some room => ⟨h, s, h.realm, [room], statusReply h s.user a.1 a.2 room⟩
  | .getQuotaRoot args =>
    let h := h.withDir (resolveMailbox h.realm.dir s.user (unquoteMailbox args)).1
    ⟨h, s, h.realm, [], []⟩
  | .select examine args =>
    let r := resolveMailbox h.realm.dir s.user (unquoted args)
    let h := h.withDir r.1
    let c := select ⟨w, fun _ => r.2, subject⟩ examine args (h.conn s)
    ⟨h.withServer c.server, c.session, h.realm, r.2.toList, []⟩
  | .fetch isUid args =>
    let c := fetch isUid args (h.conn s)
    let named := parseSet (setArgs isUid args).1 s.uids isUid
    let loads := named.any (fun pos => (loadMessage h.realm.dir.store (uidAt s.uids pos)).isSome)
    ⟨h.withServer c.server, c.session, h.realm, if s.selected && loads then [s.room] else [], []⟩
  | .store isUid args =>
    let c := storeCommand isUid args (h.conn s)
    ⟨h.withServer c.server, c.session, h.realm, [], []⟩
  | .search _ _ => ⟨h, s, h.realm, if s.selected && s.uids != [] then [s.room] else [], []⟩
  | .transfer isUid isMove body =>
    let r := resolveMailbox h.realm.dir s.user (unquoted (splitWord body).2)
    let h := h.withDir r.1
    let c := transfer ⟨w, fun _ => r.2, subject⟩ isUid isMove body (h.conn s)
    ⟨h.withServer c.server, c.session, h.realm, [], []⟩
  | .create args =>
    let r := getOrCreateUserRoom h.realm.dir s.user (leafOf (unquoted args))
    ⟨h.withDir r.1, s, h.realm, [], [if r.2 ≥ 0 then bytes "OK CREATE completed" else bytes "NO CREATE failed"]⟩
  | .delete args =>
    let r := resolveMailbox h.realm.dir s.user (unquoted args)
    let h := h.withDir r.1
    match r.2 with
    | none => ⟨h, s, h.realm, [], [bytes "NO mailbox not found"]⟩
    | some room =>
      match killRoom h.realm room with
      | (m, .ok ()) => ⟨{ h with realm := m }, s, h.realm, [], [bytes "OK DELETE completed"]⟩
      | (m, .error err) => ⟨{ h with realm := m }, s, h.realm, [], [bytes "NO " ++ err]⟩
  | .acl cmd args => aclCommand h s cmd args
  | .rename args =>
    let a := splitWord args
    let r := resolveMailbox h.realm.dir s.user (unquoted a.1)
    let h := h.withDir r.1
    match r.2 with
    | none => ⟨h, s, h.realm, [], [bytes "NO mailbox not found"]⟩
    | some room =>
      ⟨h.withDir (renameRoom h.realm.dir room (leafOf (unquoted a.2))), s, h.realm, [],
        [bytes "OK RENAME completed"]⟩
  | .append args raw =>
    let r := resolveMailbox h.realm.dir s.user (appendArgs args).mailbox
    let h := h.withDir r.1
    let c := append ⟨w, fun _ => r.2, subject⟩ args raw (h.conn s)
    ⟨h.withServer c.server, c.session, h.realm, [], []⟩
  | .expunge =>
    let c := expunge ⟨w, fun _ => none, subject⟩ (h.conn s)
    ⟨h.withServer c.server, c.session, h.realm, [], []⟩
  | .close => ⟨h, { s with selected := false }, h.realm, [], []⟩
  | .other => ⟨h, s, h.realm, [], []⟩

end QuackMail.Imap

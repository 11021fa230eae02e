import QuackMail.Imap.Command
import QuackMail.Imap.Uids

/-! # Sessions

The commands of `HandleImap` on the selected mailbox: what they change in the store, the
flags and the session's own map `uids`, and the untagged EXPUNGE and EXISTS responses
they send.  `Conn` carries the list a client keeps from these responses alone.
-/

namespace QuackMail.Imap

open Citadel

/-! ## The server -/

/-- A row of `citadel_msg_flags`. -/
structure FlagRow where
  msgnum : Nat
  username : Bytes
  flag : Bytes
  deriving DecidableEq

structure Server where
  store : Store
  flags : List FlagRow

def loadFlags (v : Server) (msgnum : Nat) (user : Bytes) : List Bytes :=
  (v.flags.filter (fun r => r.msgnum = msgnum ∧ r.username = user)).map FlagRow.flag

def addFlag (v : Server) (msgnum : Nat) (user flag : Bytes) : Server :=
  if flag ∈ loadFlags v msgnum user then v else { v with flags := v.flags ++ [⟨msgnum, user, flag⟩] }

/-- The DELETE that a STORE with `-FLAGS` prepares. -/
def removeFlag (v : Server) (msgnum : Nat) (user flag : Bytes) : Server :=
  { v with flags := v.flags.filter (· ≠ ⟨msgnum, user, flag⟩) }

/-- What a session takes from outside the tables above: `resolve` is the answer of
    `ResolveMailbox` for its user, `subject` the subject `mime::Parse` finds. -/
structure Outside where
  world : World
  resolve : Bytes → Option Nat
  subject : Bytes → Bytes

/-! ## Arguments -/

/-- `args.substr(args.find(' ') + 1)`: the whole text where there is no space. -/
def behindWord (args : Bytes) : Bytes :=
  match findChar (ch ' ') args with
  | none => args
  | some sp => args.drop (sp + 1)

/-- One number of a sequence set; `*` is the last message. -/
def setNumber (uids : List Nat) (isUid : Bool) (tok : Bytes) : Int :=
  if tok = bytes "*" then if isUid then uids.getLast?.getD 0 else uids.length
  else strtoll tok

/-- The positions of the messages in `uids`, from 1. -/
def positions (uids : List Nat) : List Nat := (List.range uids.length).map (· + 1)

/-- The message at a 1-based position. -/
def uidAt (uids : List Nat) (pos : Nat) : Nat := uids.getD (pos - 1) 0

/-- The positions one token of a set names. -/
def tokenPositions (uids : List Nat) (isUid : Bool) (tok : Bytes) : List Nat :=
  match findChar (ch ':') tok with
  | none =>
    let v := setNumber uids isUid tok
    let named := (positions uids).filter (fun pos => if isUid then (uidAt uids pos : Int) = v else (pos : Int) = v)
    named.take 1
  | some colon =>
    let a := setNumber uids isUid (tok.take colon)
    let b := setNumber uids isUid (tok.drop (colon + 1))
    (positions uids).filter (fun pos =>
      let v : Int := if isUid then uidAt uids pos else pos
      decide (min a b ≤ v ∧ v ≤ max a b))

/-- `ParseSet`: positions, in the order they are named. -/
def parseSet (set : Bytes) (uids : List Nat) (isUid : Bool) : List Nat :=
  ((splitOn (ch ',') set).filter (· ≠ [])).flatMap (tokenPositions uids isUid)

/-- `SearchTokens`: words, quoted texts and single brackets. -/
def searchTokensLoop : Nat → Bytes → List Bytes
  | 0, _ => []
  | _ + 1, [] => []
  | fuel + 1, c :: s =>
    if c = ch ' ' then searchTokensLoop fuel s
    else if c = ch '(' ∨ c = ch ')' then [c] :: searchTokensLoop fuel s
    else if c = ch '"' then
      s.takeWhile (· != ch '"') :: searchTokensLoop fuel ((s.dropWhile (· != ch '"')).drop 1)
    else
      (c :: s).takeWhile (· != ch ' ') :: searchTokensLoop fuel ((c :: s).dropWhile (· != ch ' '))

def searchTokens (s : Bytes) : List Bytes := searchTokensLoop (s.length + 1) s

/-- The arguments of APPEND: mailbox, flags and the count of the literal. -/
structure AppendArgs where
  mailbox : Bytes
  flags : List Bytes
  count : Int

/-- The flags between the first bracket and the one that closes it. -/
def appendFlags (tail : Bytes) : List Bytes :=
  match findChar (ch '(') tail with
  | none => []
  | some lp =>
    if lp = 0 ∨ tail[lp - 1]? = some (ch ' ') then
      match findCharFrom (ch ')') tail lp with
      | none => []
      | some rp => searchTokens ((tail.drop (lp + 1)).take (rp - lp - 1))
    else []

/-- The number behind the last brace, 0 without one. -/
def literalCount (tail : Bytes) : Int :=
  if ch '{' ∈ tail then strtoll ((tail.reverse.takeWhile (· != ch '{')).reverse) else 0

def appendArgs (args : Bytes) : AppendArgs :=
  let word := splitWord args
  ⟨unquoted word.1, appendFlags word.2, literalCount word.2⟩

/-- The set and the rest of the arguments of FETCH, STORE, COPY and MOVE. -/
def setArgs (isUid : Bool) (args : Bytes) : Bytes × Bytes :=
  splitWord (if isUid then behindWord args else args)

/-- The flags a STORE lists between its brackets. -/
def storeFlags (ops : Bytes) : List Bytes :=
  match findChar (ch '(') ops, findChar (ch ')') ops with
  | some lp, some rp =>
    if rp > lp then (splitOn (ch ' ') ((ops.drop (lp + 1)).take (rp - lp - 1))).filter (· ≠ [])
    else []
  | _, _ => []

/-- Whether a STORE removes its flags. -/
def storeRemoves (ops : Bytes) : Bool := (find (bytes "-FLAGS") (upper ops)).isSome

/-! ## Body sections -/

/-- Erase `.PEEK` until none is left. -/
def erasePeekLoop : Nat → Bytes → Bytes
  | 0, sect => sect
  | fuel + 1, sect =>
    match find (bytes ".PEEK") sect with
    | none => sect
    | some p => erasePeekLoop fuel (sect.take p ++ sect.drop (p + 5))

def erasePeek (items : Bytes) : Bytes := erasePeekLoop (items.length + 1) items

/-- A bare `RFC822`, not `RFC822.SIZE` and the like. -/
def bareRfc822 : Nat → Bytes → Bool
  | 0, _ => false
  | fuel + 1, sect =>
    match find (bytes "RFC822") sect with
    | none => false
    | some p => sect[p + 6]? != some (ch '.') || bareRfc822 fuel (sect.drop (p + 6))

/-- The body section a FETCH answers with. -/
def bodySection (itemsUp : Bytes) : Option Bytes :=
  let sect := erasePeek itemsUp
  let has := fun (text : Bytes) => (find text sect).isSome
  if has (bytes "BODY[HEADER]") || has (bytes "RFC822.HEADER") then
    some (if has (bytes "RFC822.HEADER") then bytes "RFC822.HEADER" else bytes "BODY[HEADER]")
  else if has (bytes "BODY[TEXT]") || has (bytes "RFC822.TEXT") then
    some (if has (bytes "RFC822.TEXT") then bytes "RFC822.TEXT" else bytes "BODY[TEXT]")
  else if has (bytes "BODY[]") || bareRfc822 (sect.length + 1) sect then
    some (if has (bytes "BODY[]") then bytes "BODY[]" else bytes "RFC822")
  else none

/-- `.PEEK` anywhere among the items. -/
def peeks (itemsUp : Bytes) : Bool := (find (bytes ".PEEK") itemsUp).isSome

/-! ## Responses -/

inductive Untagged where
  | expunge (pos : Nat)
  | exists (count : Nat)

/-- The positions from `first` on whose message satisfies `p`, the largest first. -/
def descending (p : Nat → Bool) : List Nat → Nat → List Nat
  | [], _ => []
  | uid :: uids, first => descending p uids (first + 1) ++ if p uid then [first] else []

/-- What `ReportChanges` sends where the room holds `now`. -/
def reportOf (uids now : List Nat) : List Untagged :=
  let gone := descending (fun uid => uid ∉ now) uids 1
  gone.map .expunge ++ if now.length ≠ uids.length - gone.length then [.exists now.length] else []

/-- What a client does with a response while the mailbox holds `now`. -/
def clientApply (now client : List Nat) : Untagged → List Nat
  | .expunge pos => client.eraseIdx (pos - 1)
  | .exists _ => client ++ now.filter (· ∉ client)

def clientApplyAll (now client : List Nat) (responses : List Untagged) : List Nat :=
  responses.foldl (clientApply now) client

/-! ## Sessions -/

structure Session where
  user : Bytes
  selected : Bool
  readOnly : Bool
  room : Nat
  uids : List Nat

/-- A session on a server, and the list its client keeps; `live` until the connection
    ends. -/
structure Conn where
  server : Server
  session : Session
  client : List Nat
  live : Bool

/-- The messages the selected room holds. -/
def Conn.now (c : Conn) : List Nat := roomUids c.server.store c.session.room

/-- `ReportChanges`. -/
def report (c : Conn) : Conn :=
  { c with
    session := { c.session with uids := c.now }
    client := clientApplyAll c.now c.client (reportOf c.session.uids c.now) }

/-- What somebody else does between two commands or two polls. -/
inductive Change where
  | op (w : World) (op : Op)
  | addFlag (msgnum : Nat) (user flag : Bytes)
  | removeFlag (msgnum : Nat) (user flag : Bytes)

def applyChange (v : Server) : Change → Server
  | .op w o => { v with store := step v.store (w, o) }
  | .addFlag msgnum user flag => addFlag v msgnum user flag
  | .removeFlag msgnum user flag => removeFlag v msgnum user flag

def applyChanges (c : Conn) (changes : List Change) : Conn :=
  { c with server := changes.foldl applyChange c.server }

/-! ## Commands -/

def noop (c : Conn) : Conn := if c.session.selected then report c else c

/-- The polls of `HandleIdle`: the changes are reported when the token has moved. -/
def idleLoop : List (List Change) → Nat → Conn → Conn
  | [], _, c => c
  | changes :: rounds, token, c =>
    let c := applyChanges c changes
    let fresh := roomChangeToken c.server.store c.session.room
    if c.session.selected = false ∨ fresh = token then idleLoop rounds token c
    else idleLoop rounds fresh (report c)

def idle (rounds : List (List Change)) (c : Conn) : Conn :=
  idleLoop rounds (if c.session.selected then roomChangeToken c.server.store c.session.room else 0) c

/-- What `FetchOne` leaves behind: the body of a message that loads sets `\Seen`. -/
def fetchOne (user itemsUp : Bytes) (uids : List Nat) (v : Server) (pos : Nat) : Server :=
  let uid := uidAt uids pos
  match loadMessage v.store uid with
  | none => v
  | some _ =>
    match bodySection itemsUp with
    | none => v
    | some _ => if peeks itemsUp then v else addFlag v uid user (bytes "\\Seen")

def fetch (isUid : Bool) (args : Bytes) (c : Conn) : Conn :=
  if c.session.selected then
    let (set, items) := setArgs isUid args
    { c with
      server := (parseSet set c.session.uids isUid).foldl
        (fetchOne c.session.user (upper items) c.session.uids) c.server }
  else c

def storeOne (user : Bytes) (removes : Bool) (flags : List Bytes) (uids : List Nat) (v : Server)
    (pos : Nat) : Server :=
  flags.foldl (fun v flag =>
    if removes then removeFlag v (uidAt uids pos) user flag
    else addFlag v (uidAt uids pos) user flag) v

def storeCommand (isUid : Bool) (args : Bytes) (c : Conn) : Conn :=
  if c.session.selected then
    let (set, ops) := setArgs isUid args
    { c with
      server := (parseSet set c.session.uids isUid).foldl
        (storeOne c.session.user (storeRemoves ops) (storeFlags ops) c.session.uids) c.server }
  else c

/-- `MoveMessage` of every message a set names. -/
def transferAll (w : World) (fromRoom toRoom : Nat) (isCopy : Bool) (uids : List Nat) (s : Store)
    (set : List Nat) : Store :=
  set.foldl (fun s pos => (moveMessage w s fromRoom toRoom (uidAt uids pos) isCopy).1) s

/-- COPY and MOVE; only MOVE refreshes the map. -/
def transfer (o : Outside) (isUid isMove : Bool) (body : Bytes) (c : Conn) : Conn :=
  let (set, dest) := splitWord body
  if c.session.selected then
    match o.resolve (unquoted dest) with
    | none => c
    | some droom =>
      let store := transferAll o.world c.session.room droom (!isMove) c.session.uids c.server.store
        (parseSet set c.session.uids isUid)
      let c := { c with server := { c.server with store := store } }
      if isMove then { c with session := { c.session with uids := c.now } } else c
  else c

/-- The message APPEND builds of its literal. -/
def appendMessage (o : Outside) (v : Server) (user mailbox raw : Bytes) : Message :=
  { Message.blank with
    author := user
    authorUsernum := userNum v.store user
    msgtime := o.world.now
    formatType := 4
    subject := o.subject raw
    originRoom := mailbox
    raw := raw }

/-- The part of APPEND behind the literal: `none` where the insert fails. -/
def appendStored (o : Outside) (a : AppendArgs) (droom : Nat) (raw : Bytes) (c : Conn) : Conn :=
  let stored := insertMessage o.world c.server.store
    (appendMessage o c.server c.session.user a.mailbox raw) [droom]
  let c := { c with server := { c.server with store := stored.1 } }
  match stored.2 with
  | .error _ => c
  | .ok msgnum =>
    let c := { c with
      server := a.flags.foldl (fun v flag => addFlag v msgnum c.session.user flag) c.server }
    if c.session.selected ∧ c.session.room = droom then
      { c with session := { c.session with uids := c.now } }
    else c

/-- APPEND of what was read as its literal.  A negative count ends in an exception: the
    empty text is resized to it. -/
def append (o : Outside) (args raw : Bytes) (c : Conn) : Conn :=
  let a := appendArgs args
  match o.resolve a.mailbox with
  | none => c
  | some droom =>
    if wouldExceed c.server.store c.session.user a.count then c
    else if a.count < 0 then { c with live := false }
    else appendStored o a droom raw c

/-- The flag EXPUNGE looks for. -/
def deletedFlag : Bytes := bytes "\\Deleted"

/-- `DeleteMessage` of one message after the other. -/
def expungeAll (w : World) (room : Nat) (doomed : List Nat) (s : Store) : Store :=
  doomed.foldl (fun s uid => (deleteMessage w s room uid).1) s

/-- EXPUNGE: every flagged message of the map is reported, whether it is still there or not. -/
def expunge (o : Outside) (c : Conn) : Conn :=
  if c.session.selected then
    let flagged := fun uid => decide (deletedFlag ∈ loadFlags c.server uid c.session.user)
    let gone := descending flagged c.session.uids 1
    let store := expungeAll o.world c.session.room (c.session.uids.reverse.filter flagged)
      c.server.store
    let c := { c with server := { c.server with store := store } }
    { c with
      session := { c.session with uids := c.now }
      client := clientApplyAll c.now c.client (gone.map .expunge) }
  else c

/-- SELECT and EXAMINE: the client starts over with what it is told. -/
def select (o : Outside) (examine : Bool) (args : Bytes) (c : Conn) : Conn :=
  match o.resolve (unquoted args) with
  | none => c
  | some room =>
    let uids := roomUids c.server.store room
    { c with
      session := { c.session with selected := true, readOnly := examine, room := room, uids := uids }
      client := uids }

def close (c : Conn) : Conn := { c with session := { c.session with selected := false } }

/-- The commands on a selected mailbox, with their arguments as they stand on the line. -/
inductive Request where
  | noop
  | idle (rounds : List (List Change))
  | fetch (isUid : Bool) (args : Bytes)
  | store (isUid : Bool) (args : Bytes)
  | search (isUid : Bool) (args : Bytes)
  | transfer (isUid isMove : Bool) (body : Bytes)
  | append (args raw : Bytes)
  | expunge
  | select (examine : Bool) (args : Bytes)
  | close

/-- One command of the session. -/
def perform (o : Outside) (c : Conn) : Request → Conn
  | .noop => noop c
  | .idle rounds => idle rounds c
  | .fetch isUid args => fetch isUid args c
  | .store isUid args => storeCommand isUid args c
  | .search _ _ => c
  | .transfer isUid isMove body => transfer o isUid isMove body c
  | .append args raw => append o args raw c
  | .expunge => expunge o c
  | .select examine args => select o examine args c
  | .close => close c

end QuackMail.Imap

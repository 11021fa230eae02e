import QuackMail.Net.DotStuffed
import QuackMail.Store.Invariant

/-! # News transit

The sessions of `quackmail_nntp_extension.cpp` on one store: the command loop of `HandleNntp`, and
`HandleIhave`, `HandleTakethis`, `HandlePost` and `AcceptOfferedArticle`, each cut where another
session may come in between.  The commands that take no article are parameters of `Env`.
-/

namespace QuackMail.Nntp

open Citadel Net

def kMaxArticleBytes : Nat := 4 * 1024 * 1024

/-- `Nntp`: the group is the selected one, by its newsgroup and its display name. -/
structure Peer where
  authed : Bool
  username : Bytes
  pendingUser : Bytes
  group : Option (Bytes × Bytes)

/-- The store and `citadel_msgids`.  The articles filed by IHAVE and TAKETHIS, and the rooms of
    what was answered 235, 239 or 240, are history. -/
structure News where
  store : Store
  msgids : Bytes → Option Nat
  filed : List Bytes
  answered : List (Nat × List Nat)

/-- `FindByMessageId`: a message that is gone is not had. -/
def findByMessageId (n : News) (msgid : Bytes) : Option Nat :=
  if msgid = [] then none
  else (n.msgids msgid).bind fun msgnum => (findRow n.store msgnum).map fun _ => msgnum

/-- `RecordMessageId`. -/
def recordMessageId (n : News) (msgid : Bytes) (msgnum : Nat) : News :=
  if msgid = [] ∨ msgnum = 0 then n
  else { n with msgids := Function.update n.msgids msgid (some msgnum) }

/-- What a session takes from elsewhere. -/
structure Env where
  node : Bytes
  userExists : Bytes → Bool
  verify : Bytes → Bytes → Bool
  /-- a header of `mime::Parse`, by its name -/
  header : Bytes → Bytes → Bytes
  /-- the subject of `mime::Parse` -/
  subject : Bytes → Bytes
  /-- `ResolveRoom` of the room of a newsgroup -/
  resolveRoom : Store → Bytes → Bytes → Option Nat
  canPost : Store → Bytes → Nat → Bool
  /-- `MessageId` of a message without one -/
  messageId : Message → Bytes → Bytes
  /-- the other commands: the group they leave selected, and the reply -/
  other : News → Peer → Bytes → Option (Bytes × Bytes) × Bytes

/-! ## Sessions -/

/-- Where a session is. -/
inductive Phase
  | command
  /-- 335 is sent -/
  | ihave (msgid : Bytes)
  | takethis (msgid : Bytes)
  /-- the article of a TAKETHIS is read -/
  | lookup (msgid article : Bytes)
  | insert (streaming : Bool) (msgid article : Bytes)
  | record (streaming : Bool) (msgid : Bytes) (msgnum : Nat) (rooms : List Nat)
  /-- 340 is sent -/
  | post
  | postInsert (article : Bytes)
  | postRecord (msgid : Bytes) (msgnum : Nat) (rooms : List Nat)
  | closed

/-- A session.  What was unread when the article of a command was to follow (`opened`), and for
    each such command that and what was unread when it was over (`log`), is history. -/
structure Conn where
  stream : ClientStream
  peer : Peer
  phase : Phase
  replies : List Bytes
  opened : Option Bytes
  log : List (Bytes × Bytes)

def Conn.reply (c : Conn) (r : Bytes) : Conn := { c with replies := c.replies ++ [r] }

/-- An article follows. -/
def Conn.opens (c : Conn) (phase : Phase) : Conn :=
  { c with phase := phase, opened := some (rest c.stream) }

/-- The command is over. -/
def Conn.finish (c : Conn) (r : Bytes) : Conn :=
  { c.reply r with
    phase := .command, opened := none
    log := c.log ++ c.opened.toList.map fun before => (before, rest c.stream) }

/-- `Word`. -/
def word (line : Bytes) (n : Nat) : Bytes := (splitOn (ch ' ') line).getD n []

def wellFormed (msgid : Bytes) : Bool :=
  decide (3 ≤ msgid.length ∧ msgid.head? = some (ch '<') ∧ msgid.getLast? = some (ch '>'))

/-- `AUTHINFO`. -/
def authinfo (e : Env) (c : Conn) (line : Bytes) : Conn :=
  let sub := upper (word line 1)
  let arg := word line 2
  if c.peer.authed then c.reply (bytes "482 Already logged in")
  else if sub = bytes "USER" then
    if e.userExists arg then
      { c with peer := { c.peer with pendingUser := arg } }.reply
        (bytes "381 Password required for " ++ arg)
    else c.reply (bytes "481 " ++ arg ++ bytes " not found")
  else if sub = bytes "PASS" then
    if c.peer.pendingUser = [] then
      c.reply (bytes "482 Authentication commands issued out of sequence")
    else if e.verify c.peer.pendingUser arg then
      { c with
        peer := { c.peer with authed := true, username := c.peer.pendingUser, pendingUser := [] }
      }.reply (bytes "281 Authentication accepted")
    else c.reply (bytes "481 Authentication failed")
  else c.reply (bytes "501 syntax error")

/-- The commands that are answered without authentication. -/
def openCommands : List Bytes :=
  [bytes "HELP", bytes "DATE", bytes "CAPABILITIES", bytes "STARTTLS", bytes "MODE"]

/-- A command that takes no article. -/
def answerOther (e : Env) (n : News) (c : Conn) (line : Bytes) : Conn :=
  let r := e.other n c.peer line
  { c with peer := { c.peer with group := r.1 } }.reply r.2

/-- `HandleIhave` up to the article. -/
def offer (n : News) (c : Conn) (msgid : Bytes) : Conn :=
  if wellFormed msgid = false ∨ (findByMessageId n msgid).isSome then
    c.reply (bytes "435 article not wanted")
  else (c.reply (bytes "335 send it")).opens (.ihave msgid)

/-- A line that is read as a command. -/
def command (e : Env) (n : News) (c : Conn) (line : Bytes) : Conn :=
  let verb := upper (word line 0)
  if verb = [] then c
  else if verb = bytes "QUIT" then { c.reply (bytes "205 Goodbye...") with phase := .closed }
  else if verb ∈ openCommands then answerOther e n c line
  else if verb = bytes "AUTHINFO" then authinfo e c line
  else if c.peer.authed = false then
    -- the article of a TAKETHIS stays on the stream
    let opened := if verb = bytes "TAKETHIS" then some (rest c.stream) else none
    { c with opened := opened }.finish (bytes "480 authentication required")
  else if verb = bytes "POST" then
    (c.reply (bytes "340 Send article to be posted")).opens .post
  else if verb = bytes "IHAVE" then offer n c (word line 1)
  else if verb = bytes "TAKETHIS" then c.opens (.takethis (word line 1))
  else answerOther e n c line

/-! ## Articles -/

/-- The groups between the commas. -/
def groupsOf (ng : Bytes) : List Bytes :=
  let isPad := fun c => c = ch ' ' || c = ch '\t'
  ((splitOn (ch ',') ng).map fun one =>
    (one.dropWhile isPad).rdropWhile fun c => isPad c || c = ch '\r').filter (· ≠ [])

/-- The rooms of an offered article: of the groups that are carried and can be posted to. -/
def carried (e : Env) (s : Store) (username article : Bytes) : List Nat :=
  (groupsOf (e.header article (bytes "Newsgroups"))).filterMap fun g =>
    (e.resolveRoom s username g).filter (e.canPost s username)

/-- The message of an offered article. -/
def offeredMessage (e : Env) (w : World) (peer : Peer) (article : Bytes) : Message :=
  let sender := e.header article (bytes "From")
  let subject := e.subject article
  { Message.blank with
    author := if sender = [] then peer.username else sender
    msgtime := w.now, formatType := 4
    subject := if subject = [] then e.header article (bytes "Subject") else subject
    references := e.header article (bytes "References")
    node := e.header article (bytes "Path"), raw := article }

/-- Why an article cannot be filed, as the peer is told: 437 means not to offer it again. -/
def refusal (streaming : Bool) (msgid why : Bytes) : Bytes :=
  if streaming then bytes "439 " ++ msgid ++ bytes " " ++ why
  else if why = bytes "no newsgroup carried here" ∨ why = bytes "no newsgroup specified" then
    bytes "437 article rejected: " ++ why
  else bytes "436 transfer failed: " ++ why

/-- `AcceptOfferedArticle` up to the insert. -/
def insertOffered (e : Env) (w : World) (c : Conn) (n : News) (streaming : Bool)
    (msgid article : Bytes) : Conn × News :=
  if groupsOf (e.header article (bytes "Newsgroups")) = [] then
    (c.finish (refusal streaming msgid (bytes "no newsgroup specified")), n)
  else
    let rooms := carried e n.store c.peer.username article
    if rooms = [] then
      (c.finish (refusal streaming msgid (bytes "no newsgroup carried here")), n)
    else
      match insertMessage w n.store (offeredMessage e w c.peer article) rooms with
      | (s, .error why) => (c.finish (refusal streaming msgid why), { n with store := s })
      | (s, .ok msgnum) =>
        ({ c with phase := .record streaming msgid msgnum rooms },
          { n with store := s, filed := n.filed ++ [msgid] })

/-- The rooms of a posted article, all of them, or the reply. -/
def postRooms (e : Env) (s : Store) (username : Bytes) : List Bytes → Except Bytes (List Nat)
  | [] => .ok []
  | g :: groups =>
    match e.resolveRoom s username g with
    | none => .error (bytes "441 posting failed: no such newsgroup " ++ g)
    | some room =>
      if e.canPost s username room = false then .error (bytes "440 posting not permitted to " ++ g)
      else (postRooms e s username groups).map (room :: ·)

/-- The groups of a posted article: without a header, the selected one. -/
def postGroups (e : Env) (peer : Peer) (article : Bytes) : List Bytes :=
  let ng := e.header article (bytes "Newsgroups")
  groupsOf (if ng = [] then (peer.group.map Prod.fst).getD [] else ng)

def postedMessage (e : Env) (w : World) (s : Store) (peer : Peer) (article : Bytes) : Message :=
  { offeredMessage e w peer article with
    author := peer.username, authorUsernum := userNum s peer.username
    originRoom := (peer.group.map Prod.snd).getD [] }

/-- The id of a posted article: its own, or the one that is derived. -/
def postedId (e : Env) (msg : Message) (article : Bytes) : Bytes :=
  let msgid := e.header article (bytes "Message-ID")
  if msgid = [] then e.messageId msg e.node else msgid

/-- `HandlePost` behind the article, up to the insert. -/
def insertPosted (e : Env) (w : World) (c : Conn) (n : News) (article : Bytes) : Conn × News :=
  if postGroups e c.peer article = [] then
    (c.finish (bytes "441 posting failed: no newsgroup specified"), n)
  else
    match postRooms e n.store c.peer.username (postGroups e c.peer article) with
    | .error reply => (c.finish reply, n)
    | .ok rooms =>
      let msg := postedMessage e w n.store c.peer article
      match insertMessage w n.store msg rooms with
      | (s, .error why) =>
        (c.finish (bytes "441 posting failed: " ++ why), { n with store := s })
      | (s, .ok msgnum) =>
        let msgid := postedId e { msg with msgnum := msgnum } article
        ({ c with phase := .postRecord msgid msgnum rooms }, { n with store := s })

/-- The last step: the id is recorded, and the peer is answered. -/
def recordAndAnswer (c : Conn) (n : News) (msgid : Bytes) (msgnum : Nat) (rooms : List Nat)
    (reply : Bytes) : Conn × News :=
  let n' := recordMessageId n msgid msgnum
  (c.finish reply, { n' with answered := n'.answered ++ [(msgnum, rooms)] })

/-- What the session does next. -/
def advance (e : Env) (w : World) (c : Conn) (n : News) : Conn × News :=
  let article := readDotStuffed kMaxArticleBytes c.stream
  match c.phase with
  | .closed => (c, n)
  | .command =>
    match readLine 8192 c.stream with
    | (s, none) => ({ c with stream := s, phase := .closed }, n)
    | (s, some line) => (command e n { c with stream := s } line, n)
  | .ihave msgid =>
    match article with
    | (s, none) =>
      ({ c with stream := s }.finish
        (bytes "436 transfer failed: article too large or connection lost"), n)
    | (s, some text) => ({ c with stream := s, phase := .insert false msgid text }, n)
  | .takethis msgid =>
    match article with
    | (s, none) => ({ c with stream := s }.finish (refusal true msgid (bytes "transfer failed")), n)
    | (s, some text) =>
      if wellFormed msgid then ({ c with stream := s, phase := .lookup msgid text }, n)
      else ({ c with stream := s }.finish (refusal true msgid (bytes "syntax error")), n)
  | .lookup msgid text =>
    if (findByMessageId n msgid).isSome then
      (c.finish (refusal true msgid (bytes "already have it")), n)
    else ({ c with phase := .insert true msgid text }, n)
  | .insert streaming msgid text => insertOffered e w c n streaming msgid text
  | .record streaming msgid msgnum rooms =>
    recordAndAnswer c n msgid msgnum rooms
      (if streaming then bytes "239 " ++ msgid ++ bytes " article transferred OK"
        else bytes "235 article transferred OK")
  | .post =>
    match article with
    | (s, none) =>
      ({ c with stream := s }.finish
        (bytes "441 posting failed: article too large or connection lost"), n)
    | (s, some text) => ({ c with stream := s, phase := .postInsert text }, n)
  | .postInsert text => insertPosted e w c n text
  | .postRecord msgid msgnum rooms =>
    recordAndAnswer c n msgid msgnum rooms (bytes "240 Article received OK")

/-! ## Runs -/

/-- All sessions on the one store. -/
structure Server where
  conns : Nat → Conn
  news : News

/-- Session `i` takes a step. -/
def step (e : Env) (v : Server) (a : Nat × World) : Server :=
  let r := advance e a.2 (v.conns a.1) v.news
  ⟨Function.update v.conns a.1 r.1, r.2⟩

def run (e : Env) (v : Server) (steps : List (Nat × World)) : Server := steps.foldl (step e) v

/-- The sessions begin on a store. -/
def start (streams : Nat → ClientStream) (store : Store) (msgids : Bytes → Option Nat) : Server :=
  ⟨fun i => ⟨streams i, ⟨false, [], [], none⟩, .command, [], none, []⟩, ⟨store, msgids, [], []⟩⟩

end QuackMail.Nntp

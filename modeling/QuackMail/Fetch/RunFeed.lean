import Mathlib.Data.List.Sort
import QuackMail.Net.DotWriters

/-! # One run of a feed

`RunFeed`: a POP3 mailbox through `FetchPop3`, an IMAP mailbox through `FetchImap`, or a feed
document, with the table of what was seen and what is recorded on the row of the feed.  What the
far end and the target do comes with the run: every download and every `Store` can fail.
-/

namespace QuackMail.Fetch

/-- What a run reads of the row of a feed, less the resume state. -/
structure Feed where
  maxPerRun : Nat
  maxBytes : Nat

/-- A row of `quackmail_feed_seen`. -/
structure SeenRow where
  uid : Bytes
  seenAt : Nat
  deriving DecidableEq

/-- The column `last_status`. -/
inductive Status
  | none
  | ok
  | error
  | unchanged

/-- The rows of the feed, with what was posted so far and which rows were pruned. -/
structure State where
  seen : List SeenRow
  uidvalidity : Nat
  lastUid : Nat
  etag : Bytes
  lastModified : Bytes
  lastStatus : Status
  lastError : Bytes
  messagesPulled : Nat
  posted : List Bytes
  pruned : List Bytes

/-- A feed that never ran. -/
def State.new : State := ⟨[], 0, 0, [], [], .none, [], 0, [], []⟩

/-! ## The table of what was seen -/

/-- `kSeenKeep`. -/
def seenKeep : Nat := 2000

/-- `Seen`. -/
def seen (uid : Bytes) (st : State) : Bool := st.seen.any fun row => decide (row.uid = uid)

/-- `MarkSeen`. -/
def markSeen (now : Nat) (uid : Bytes) (st : State) : State :=
  if seen uid st then st else { st with seen := st.seen ++ [⟨uid, now⟩] }

/-- The rows that were seen last. -/
def latest (rows : List SeenRow) : List SeenRow :=
  (rows.insertionSort fun a b => b.seenAt ≤ a.seenAt).take seenKeep

/-- `PruneSeen`. -/
def pruneSeen (st : State) : State :=
  { st with
    seen := st.seen.filter fun row => decide (row ∈ latest st.seen)
    pruned := st.pruned ++
      (st.seen.filter fun row => !decide (row ∈ latest st.seen)).map SeenRow.uid }

/-! ## Posting -/

/-- `Fetched`. -/
structure Fetched where
  uid : Bytes
  raw : Bytes

/-- `RunResult`. -/
structure RunResult where
  fetched : Nat
  stored : Nat
  skipped : Nat
  status : Status
  error : Bytes

def RunResult.new : RunResult := ⟨0, 0, 0, .none, []⟩

/-- `Store`, which posts the message or fails with a text. -/
def store (fails : Bytes → Option Bytes) (m : Fetched) (st : State) : State × Option Bytes :=
  match fails m.uid with
  | none => ({ st with posted := st.posted ++ [m.uid] }, none)
  | some err => (st, some err)

/-- `RecordRun`. -/
def recordRun (res : RunResult) (uidvalidity lastUid : Nat) (etag lastModified : Bytes)
    (st : State) : State :=
  { st with
    lastStatus := res.status
    lastError := res.error
    uidvalidity := uidvalidity
    lastUid := lastUid
    etag := etag
    lastModified := lastModified
    messagesPulled := st.messagesPulled + res.stored }

/-! ## Mailboxes -/

/-- `Result` of the mail clients. -/
structure Result where
  seen : Nat
  fetched : Nat
  uidvalidity : Nat
  highestUid : Nat
  info : Bytes

section Clients

variable {σ : Type} (maxMessages maxBytes : Nat) (want : σ → Bytes → Bool)
  (onMessage : σ → Fetched → σ × Bool)

/-- The loop of `FetchPop3` over the messages of the mailbox; a download is refused, or its lines
    are read from the stream. -/
def fetchPop3Loop (retr : Nat → Option Net.ClientStream) :
    List (Nat × Bytes) → σ → Result → σ × Result
  | [], s, res => (s, res)
  | (number, uid) :: messages, s, res =>
    if 0 < maxMessages ∧ maxMessages ≤ res.fetched then
      (s, { res with info := bytes "stopped at the per-run limit" })
    else if want s uid = false then fetchPop3Loop retr messages s res
    else
      match (retr number).bind fun stream => (Net.pop3Multi maxBytes stream).2 with
      | none => fetchPop3Loop retr messages s res
      | some body =>
        match onMessage s ⟨uid, Net.joinLines body⟩ with
        | (s', false) => fetchPop3Loop retr messages s' res
        | (s', true) => fetchPop3Loop retr messages s' { res with fetched := res.fetched + 1 }

/-- `FetchPop3`, once the mailbox is listed. -/
def fetchPop3 (retr : Nat → Option Net.ClientStream) (messages : List (Nat × Bytes)) (s : σ) :
    σ × Result :=
  fetchPop3Loop maxMessages maxBytes want onMessage retr messages s
    ⟨messages.length, 0, 0, 0, []⟩

/-- The name of a message in the table. -/
def imapKey (uidvalidity uid : Nat) : Bytes := num uidvalidity ++ bytes "." ++ num uid

/-- The result after a message that needs no other look. -/
def Result.advance (uid : Nat) (res : Result) : Result :=
  { res with highestUid := max res.highestUid uid }

/-- The loop of `FetchImap` over the uids; a download is refused, or gives what follows the
    marker in the response, nothing where there is none. -/
def fetchImapLoop (fetch : Nat → Option Bytes) : List Nat → σ → Result → σ × Result
  | [], s, res => (s, res)
  | uid :: uids, s, res =>
    if 0 < maxMessages ∧ maxMessages ≤ res.fetched then
      (s, { res with info := bytes "stopped at the per-run limit" })
    else
      let key := imapKey res.uidvalidity uid
      if want s key = false then fetchImapLoop fetch uids s (res.advance uid)
      else
        match fetch uid with
        | none => fetchImapLoop fetch uids s res
        | some raw =>
          if raw = [] ∨ (0 < maxBytes ∧ maxBytes < raw.length) then
            fetchImapLoop fetch uids s (res.advance uid)
          else
            match onMessage s ⟨key, raw⟩ with
            | (s', false) => fetchImapLoop fetch uids s' res
            | (s', true) =>
              fetchImapLoop fetch uids s' ({ res with fetched := res.fetched + 1 }.advance uid)

/-- The uid that `FetchImap` resumes behind. -/
def resumeUid (uidvalidity sinceUid current : Nat) : Nat :=
  if uidvalidity ≠ 0 ∧ current ≠ 0 ∧ current ≠ uidvalidity then 0 else sinceUid

/-- `UID SEARCH UID n:*`: the uids from `n` on, and the highest one in any case. -/
def uidSearch (n : Nat) (uids : List Nat) : List Nat :=
  uids.filter fun uid => decide (n ≤ uid) || decide (∀ other ∈ uids, other ≤ uid)

/-- The uids that `FetchImap` goes through. -/
def newUids (fromUid : Nat) (uids : List Nat) : List Nat :=
  ((uidSearch (fromUid + 1) uids).filter fun uid => decide (fromUid < uid)).insertionSort (· ≤ ·)

/-- `FetchImap`, once the mailbox is selected and searched. -/
def fetchImap (uidvalidity sinceUid : Nat) (fetch : Nat → Option Bytes) (current : Nat)
    (uids : List Nat) (s : σ) : σ × Result :=
  let fromUid := resumeUid uidvalidity sinceUid current
  let info :=
    if uidvalidity ≠ 0 ∧ current ≠ 0 ∧ current ≠ uidvalidity then
      bytes "UIDVALIDITY changed; starting from the beginning of the mailbox"
    else []
  let found := newUids fromUid uids
  fetchImapLoop maxMessages maxBytes want onMessage fetch found s
    ⟨found.length, 0, current, fromUid, info⟩

end Clients

/-! ## Sources -/

/-- A POP3 mailbox: the UIDLs of its messages, all distinct. -/
structure Maildrop where
  uids : List Bytes
  distinct : uids.Nodup

/-- An IMAP mailbox: its messages by uid. -/
structure Mailbox where
  uidvalidity : Nat
  messages : List (Nat × Bytes)
  validity_pos : 0 < uidvalidity
  uids_pos : ∀ m ∈ messages, 0 < m.1
  distinct : (messages.map Prod.fst).Nodup

/-- An item of a document, with the message that `ToRfc822` makes of it; `Parse` gives every item
    a guid. -/
structure Entry where
  guid : Bytes
  raw : Bytes
  guid_ne : guid ≠ []

/-- A document, parsed or not a feed, with its validators. -/
structure Document where
  items : Option (List Entry)
  etag : Bytes
  lastModified : Bytes

/-- The server answers 304 to these validators: an `If-None-Match` goes before an
    `If-Modified-Since`. -/
def Document.current (doc : Document) (etag lastModified : Bytes) : Bool :=
  if etag ≠ [] then decide (etag = doc.etag)
  else if lastModified ≠ [] then decide (lastModified = doc.lastModified)
  else false

inductive Source
  | pop3 (drop : Maildrop)
  | imap (box : Mailbox)
  | rss (doc : Document)

/-- The response to `UID FETCH`: refused, without a body, or with the body and the rest of its
    line. -/
inductive FetchAnswer
  | refused
  | empty
  | body (rest : Bytes)

/-- What the far end and the target do in a run. -/
structure Conn where
  now : Nat
  /-- The text of a failure before the messages are listed or the document is read. -/
  refusal : Option Bytes
  retr : Nat → Option Net.ClientStream
  fetch : Nat → FetchAnswer
  storeFails : Bytes → Option Bytes

/-- The bytes of a message. -/
def Mailbox.bytesOf (box : Mailbox) (uid : Nat) : Bytes :=
  ((box.messages.find? fun m => decide (m.1 = uid)).map Prod.snd).getD []

/-- What `FetchImap` makes of the response: the literal is spliced into its line. -/
def rawOf (box : Mailbox) (answer : Nat → FetchAnswer) (uid : Nat) : Option Bytes :=
  match answer uid with
  | .refused => none
  | .empty => some []
  | .body rest => some (box.bytesOf uid ++ rest)

/-! ## Runs -/

/-- The callback `want` of `RunMailbox`. -/
def want (s : State × RunResult) (uid : Bytes) : Bool := !seen uid s.1

/-- The callback `store` of `RunMailbox`. -/
def onMessage (conn : Conn) (s : State × RunResult) (m : Fetched) : (State × RunResult) × Bool :=
  match store conn.storeFails m s.1 with
  | (st, some err) => ((st, { s.2 with error := err }), false)
  | (st, none) => ((markSeen conn.now m.uid st, { s.2 with stored := s.2.stored + 1 }), true)

/-- `RunMailbox`, after a client that could not list the messages. -/
def refuseMailbox (err : Bytes) (st : State) : State × Bool :=
  (recordRun { RunResult.new with status := .error, error := err } st.uidvalidity st.lastUid
    st.etag st.lastModified st, false)

/-- `RunMailbox`, after the client's run. -/
def finishMailbox (r : Result) (uidvalidity lastUid : Nat) (s : State × RunResult) :
    State × Bool :=
  let res := { s.2 with fetched := r.fetched, skipped := r.seen - r.fetched, status := .ok }
  let res := if r.info ≠ [] ∧ res.error = [] then { res with error := r.info } else res
  (pruneSeen (recordRun res uidvalidity lastUid s.1.etag s.1.lastModified s.1), true)

/-- `RunMailbox` on a POP3 mailbox. -/
def runPop3 (feed : Feed) (conn : Conn) (drop : Maildrop) (st : State) : State × Bool :=
  match conn.refusal with
  | some err => refuseMailbox err st
  | none =>
    let out := fetchPop3 feed.maxPerRun feed.maxBytes want (onMessage conn) conn.retr
      (drop.uids.zipIdx.map fun m => (m.2 + 1, m.1)) (st, RunResult.new)
    finishMailbox out.2 st.uidvalidity st.lastUid out.1

/-- `RunMailbox` on an IMAP mailbox. -/
def runImap (feed : Feed) (conn : Conn) (box : Mailbox) (st : State) : State × Bool :=
  match conn.refusal with
  | some err => refuseMailbox err st
  | none =>
    let out := fetchImap feed.maxPerRun feed.maxBytes want (onMessage conn) st.uidvalidity
      st.lastUid (rawOf box conn.fetch) box.uidvalidity (box.messages.map Prod.fst)
      (st, RunResult.new)
    finishMailbox out.2 out.2.uidvalidity out.2.highestUid out.1

/-- The loop of `RunRss`: the state, the result, and whether no `Store` failed. -/
def rssLoop (feed : Feed) (conn : Conn) : List Entry → State → RunResult →
    State × RunResult × Bool
  | [], st, res => (st, res, true)
  | item :: items, st, res =>
    if feed.maxPerRun ≤ res.stored then
      (st, { res with error := bytes "stopped at the per-run limit" }, true)
    else if item.guid = [] then rssLoop feed conn items st res
    else if seen item.guid st then
      rssLoop feed conn items st { res with skipped := res.skipped + 1 }
    else
      match store conn.storeFails ⟨item.guid, item.raw⟩ st with
      | (st', some err) =>
        (st', { res with fetched := res.fetched + 1, status := .error, error := err }, false)
      | (st', none) =>
        rssLoop feed conn items (markSeen conn.now item.guid st')
          { res with fetched := res.fetched + 1, stored := res.stored + 1 }

/-- `RunRss`. -/
def runRss (feed : Feed) (conn : Conn) (doc : Document) (st : State) : State × Bool :=
  match conn.refusal with
  | some err =>
    (recordRun { RunResult.new with status := .error, error := err } st.uidvalidity st.lastUid
      st.etag st.lastModified st, false)
  | none =>
    if doc.current st.etag st.lastModified then
      (recordRun { RunResult.new with status := .unchanged } st.uidvalidity st.lastUid st.etag
        st.lastModified st, true)
    else
      match doc.items with
      | none =>
        (recordRun
          { RunResult.new with
            status := .error
            error := bytes "the response is not an RSS or Atom feed" }
          st.uidvalidity st.lastUid doc.etag doc.lastModified st, false)
      | some items =>
        match rssLoop feed conn items.reverse st RunResult.new with
        | (st', res, false) =>
          (recordRun res st.uidvalidity st.lastUid doc.etag doc.lastModified st', false)
        | (st', res, true) =>
          (pruneSeen (recordRun { res with status := .ok } st.uidvalidity st.lastUid doc.etag
            doc.lastModified st'), true)

/-- `RunFeed`. -/
def runFeed (feed : Feed) (conn : Conn) (source : Source) (st : State) : State × Bool :=
  match source with
  | .pop3 drop => runPop3 feed conn drop st
  | .imap box => runImap feed conn box st
  | .rss doc => runRss feed conn doc st

end QuackMail.Fetch

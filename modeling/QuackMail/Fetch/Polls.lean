import Mathlib.Data.List.Dedup
import QuackMail.Fetch.Posts

/-! # Polls of a source that changes

A feed and its far end over a whole history: the source changes between the runs, and each run
has its own failures.  `Once` is what polling promises, and `Steady` says of a run that it does
not lose or forget an item.
-/

namespace QuackMail.Fetch

/-- The rows of the feed, the source, and all that the source has been so far. -/
structure System where
  state : State
  source : Source
  past : List Source

def System.start (source : Source) : System := ⟨.new, source, [source]⟩

inductive Event
  | change (source : Source)
  | poll (conn : Conn)

def step (feed : Feed) (sys : System) : Event → System
  | .change source => { sys with source := source, past := sys.past ++ [source] }
  | .poll conn => { sys with state := (runFeed feed conn sys.source sys.state).1 }

/-- The system after a history. -/
def run (feed : Feed) (source : Source) (events : List Event) : System :=
  events.foldl (step feed) (.start source)

/-! ## Histories -/

/-- How a source changes: a new message of an IMAP mailbox has a larger uid than all before, and
    a document that the server takes for unchanged has the same items. -/
def Follows (past : List Source) : Source → Source → Prop
  | .pop3 _, .pop3 _ => True
  | .imap box, .imap box' =>
    ∀ m ∈ box'.messages,
      (box.uidvalidity = box'.uidvalidity ∧ m ∈ box.messages) ∨
        ∀ old, .imap old ∈ past → old.uidvalidity = box'.uidvalidity →
          ∀ m' ∈ old.messages, m'.1 < m.1
  | .rss _, .rss doc' =>
    ∀ old, .rss old ∈ past → doc'.current old.etag old.lastModified = true →
      old.items = doc'.items
  | _, _ => False

/-- The changes of a history are changes of its source. -/
def History (feed : Feed) (sys : System) : List Event → Prop
  | [] => True
  | e :: events =>
    (∀ source, e = .change source → Follows sys.past sys.source source) ∧
      History feed (step feed sys e) events

/-! ## What polling promises -/

/-- The message exceeds `max_bytes`. -/
def TooLong (feed : Feed) (raw : Bytes) : Prop := 0 < feed.maxBytes ∧ feed.maxBytes < raw.length

/-- No item was posted twice, and none is skipped for good: what is under the recorded uid, or in
    the document of the recorded validators, was posted, was seen or is too long. -/
structure Once (feed : Feed) (sys : System) : Prop where
  once : sys.state.posted.Nodup
  imap : ∀ box, sys.source = .imap box → box.uidvalidity = sys.state.uidvalidity →
    ∀ m ∈ box.messages, m.1 ≤ sys.state.lastUid →
      imapKey box.uidvalidity m.1 ∈ sys.state.posted ∨
        seen (imapKey box.uidvalidity m.1) sys.state = true ∨ TooLong feed m.2
  rss : ∀ doc, .rss doc ∈ sys.past → doc.etag = sys.state.etag →
    doc.lastModified = sys.state.lastModified → (doc.etag ≠ [] ∨ doc.lastModified ≠ []) →
    ∀ items, doc.items = some items → ∀ e ∈ items,
      e.guid ∈ sys.state.posted ∨ seen e.guid sys.state = true

/-! ## Runs that lose nothing -/

/-- What becomes of a uid in a run. -/
inductive Turn
  | known
  | failed
  | passed
  | posted
  deriving DecidableEq

/-- What becomes of a uid, as the table, the response and `Store` have it: it is in the table, its
    download or `Store` fails, the response is empty or too long, or it is posted. -/
def turn (feed : Feed) (conn : Conn) (box : Mailbox) (st : State) (uid : Nat) : Turn :=
  if seen (imapKey box.uidvalidity uid) st then .known
  else
    match rawOf box conn.fetch uid with
    | none => .failed
    | some raw =>
      if raw = [] ∨ (0 < feed.maxBytes ∧ feed.maxBytes < raw.length) then .passed
      else if conn.storeFails (imapKey box.uidvalidity uid) = none then .posted
      else .failed

/-- Until the limit, a uid that fails is followed by uids that fail, and one that is passed over
    has a message that is too long. -/
def SteadyUids (feed : Feed) (conn : Conn) (box : Mailbox) (st : State) : Nat → List Nat → Prop
  | _, [] => True
  | fetched, uid :: uids =>
    (0 < feed.maxPerRun ∧ feed.maxPerRun ≤ fetched) ∨
      match turn feed conn box st uid with
      | .known => SteadyUids feed conn box st fetched uids
      | .failed => ∀ later ∈ uids, turn feed conn box st later = .failed
      | .passed => TooLong feed (box.bytesOf uid) ∧ SteadyUids feed conn box st fetched uids
      | .posted => SteadyUids feed conn box st (fetched + 1) uids

/-- The items of a document that the table does not have. -/
def unseen (st : State) (items : List Entry) : List Bytes :=
  ((items.map Entry.guid).dedup).filter fun guid => !seen guid st

/-- A run that loses and forgets nothing.  A POP3 mailbox or a document offers no item whose row
    was pruned; an IMAP mailbox is gone through as far as it succeeds; and of a document with
    validators every new item is stored, within the limit. -/
def Steady (feed : Feed) (conn : Conn) (st : State) : Source → Prop
  | .pop3 drop => conn.refusal = none → ∀ uid ∈ drop.uids, uid ∉ st.pruned
  | .imap box =>
    conn.refusal = none →
      SteadyUids feed conn box st 0
        (newUids (resumeUid st.uidvalidity st.lastUid box.uidvalidity)
          (box.messages.map Prod.fst))
  | .rss doc =>
    conn.refusal = none → doc.current st.etag st.lastModified = false →
      ∀ items, doc.items = some items →
        (∀ e ∈ items, e.guid ∉ st.pruned) ∧
        ((doc.etag ≠ [] ∨ doc.lastModified ≠ []) →
          (unseen st items).length ≤ feed.maxPerRun ∧
            ∀ guid ∈ unseen st items, conn.storeFails guid = none)

/-- Every run of the history is steady. -/
def SteadyRuns (feed : Feed) (sys : System) : List Event → Prop
  | [] => True
  | e :: events =>
    (∀ conn, e = .poll conn → Steady feed conn sys.state sys.source) ∧
      SteadyRuns feed (step feed sys e) events

end QuackMail.Fetch

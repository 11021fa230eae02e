import QuackMail.Codec.Base64
import QuackMail.Diff.Unified
import QuackMail.Store.Messages

/-! # Saving a page

`UpsertByEuid` of `citadel_store.cpp` and the history hook `RecordRevision` of
`wiki.cpp` it calls.  The hook stores its own message through `UpsertByEuid` again,
under a name for which there is no hook: `upsertHistory` is that inner call, and
`upsertByEuid_history` says that it is the same function.
-/

namespace QuackMail.Wiki

open Citadel

def historySuffix : Bytes := bytes "_HISTORY_"

def preamble : Bytes :=
  bytes "This is a Citadel wiki history encoded as multipart MIME.\nEach part is comprised of a diff script representing one change set.\n"

def historyEuid (page : Bytes) : Bytes := page ++ historySuffix

/-- `IsHistoryEuid`: the suffix, in any case. -/
def isHistoryEuid (euid : Bytes) : Bool :=
  decide (euid.length ≥ historySuffix.length) &&
    lower (euid.drop (euid.length - historySuffix.length)) == lower historySuffix

/-- `VIEW_WIKI` and `VIEW_WIKIMD`. -/
def isWikiView (defaultView : Int) : Bool := defaultView == 6 || defaultView == 12

/-- `"old_msgnum|timestamp|author|"` with a trailing NUL. -/
def memo (rev : Nat) (timestamp : Int) (author : Bytes) : Bytes :=
  num rev ++ [ch '|'] ++ numInt timestamp ++ [ch '|'] ++ author ++ [ch '|', 0]

def encodeMemo (rev : Nat) (timestamp : Int) (author : Bytes) : Bytes :=
  Base64.encode (memo rev timestamp author)

/-- `BoundaryOf`: the boundary a history was written with, `""` for none. -/
def boundaryOf (raw : Bytes) : Bytes :=
  let limit := (find (bytes "\n\n") raw).getD raw.length
  let head := lower (raw.take limit)
  match find (bytes "content-type:") head with
  | none => []
  | some ct =>
    match findFrom (bytes "boundary") head ct with
    | none => []
    | some b =>
      match findCharFrom (ch '=') head b with
      | none => []
      | some eq =>
        let value := ((raw.take limit).drop (eq + 1)).dropWhile (fun c => c == ch ' ' || c == ch '"')
        value.takeWhile (fun c => c != ch '"' && c != ch ';' && c != ch '\n' && c != ch '\r')

def hexDigit (n : Nat) : Byte := (bytes "0123456789abcdef").getD n 0

def hex (bs : List Byte) : Bytes :=
  bs.flatMap (fun c => [hexDigit (c.toNat / 16), hexDigit (c.toNat % 16)])

def newBoundary (w : World) : Bytes :=
  bytes "Citadel--Multipart--" ++ hex w.random2 ++ bytes "--" ++ hex w.random4

def opener (boundary : Bytes) : Bytes := bytes "--" ++ boundary

def closer (boundary : Bytes) : Bytes := bytes "--" ++ boundary ++ bytes "--"

/-- The boundary to write with and the parts already there, newest first, with the
    closing delimiter after them. -/
def historyTail (w : World) (oldHistory : Bytes) : Bytes × Bytes :=
  let boundary := boundaryOf oldHistory
  let fresh := (newBoundary w, closer (newBoundary w) ++ bytes "\n")
  if boundary = [] then fresh
  else
    match find (opener boundary) oldHistory, find (closer boundary) oldHistory with
    | some first, some _ => (boundary, oldHistory.drop first)
    | _, _ => fresh

/-- One part: the delimiter line, its headers and the patch. -/
def historyPart (boundary encoded patch : Bytes) : Bytes :=
  opener boundary ++ bytes "\n" ++ bytes "Content-type: text/x-diff\n" ++
    bytes "Content-disposition: attachment; filename=\"" ++ encoded ++ bytes "\"\n" ++
    bytes "\n" ++ patch ++ (if patch ≠ [] ∧ patch.getLast? ≠ some (ch '\n') then bytes "\n" else [])

/-- The text of a history message with a new part at the front. -/
def historyBody (boundary encoded patch tail : Bytes) : Bytes :=
  bytes "Content-type: multipart/mixed; boundary=\"" ++ boundary ++ bytes "\"\n\n" ++ preamble ++
    bytes "\n" ++ historyPart boundary encoded patch ++ tail

def historyMessage (w : World) (page body : Bytes) : Message :=
  { Message.blank with
    euid := historyEuid page
    subject := historyEuid page
    author := bytes "Citadel"
    msgtime := w.now
    formatType := 4
    raw := body }

/-- Insert the new object, then unlink the one it replaces. -/
def replaceByEuid (w : World) (s : Store) (msg : Message) (roomNum : Nat) (old : Option Nat) :
    Store × Except Bytes Nat :=
  match insertMessage w s msg [roomNum] with
  | (s', .error err) => (s', .error err)
  | (s', .ok created) =>
    match old with
    | none => (s', .ok created)
    | some n =>
      if n = created then (s', .ok created)
      else ((deleteMessage w s' roomNum n).1, .ok created)

/-- `UpsertByEuid` of a history message, which has no hook of its own. -/
def upsertHistory (w : World) (s : Store) (msg : Message) (roomNum : Nat) :
    Store × Except Bytes Nat :=
  if msg.euid = [] then (s, .error (bytes "a groupware object needs an euid"))
  else replaceByEuid w s msg roomNum (findByEuid s roomNum msg.euid)

inductive RecordResult where
  | recorded | noPrevious | unchanged | error (err : Bytes)
  deriving DecidableEq

/-- The history message of a page, `""` where there is none. -/
def oldHistory (s : Store) (roomNum : Nat) (page : Bytes) : Bytes :=
  match (findByEuid s roomNum (historyEuid page)).filter (0 < ·) with
  | none => []
  | some n => ((loadMessage s n).map Message.raw).getD []

/-- The history message that records `patch` for the version `old`. -/
def recordMessage (w : World) (s : Store) (roomNum : Nat) (page : Bytes) (old : Message)
    (patch : Bytes) : Message :=
  let t := historyTail w (oldHistory s roomNum page)
  historyMessage w page
    (historyBody t.1 (encodeMemo old.msgnum old.msgtime old.author) patch t.2)

/-- `RecordRevision`: the patch goes from the new text to the old one. -/
def recordRevision (w : World) (s : Store) (roomNum : Nat) (page newRaw : Bytes) :
    Store × RecordResult :=
  if page = [] ∨ isHistoryEuid page then (s, .noPrevious)
  else
    match (findByEuid s roomNum page).filter (0 < ·) with
    | none => (s, .noPrevious)
    | some oldNum =>
      match loadMessage s oldNum with
      | none => (s, .noPrevious)
      | some old =>
        if old.raw = newRaw then (s, .unchanged)
        else
          let patch := Diff.unifiedDefault newRaw old.raw
          if patch = [] then (s, .unchanged)
          else
            match upsertHistory w s (recordMessage w s roomNum page old patch) roomNum with
            | (s', .error err) =>
              (s', .error (if err = [] then bytes "The page history could not be written." else err))
            | (s', .ok _) => (s', .recorded)

/-- Whether a save of `euid` into the room has to be recorded. -/
def hooked (s : Store) (roomNum : Nat) (euid : Bytes) : Bool :=
  (findByEuid s roomNum euid).isSome && !isHistoryEuid euid &&
    (getRoomByNum s roomNum).any (fun r => isWikiView r.defaultView)

/-- `UpsertByEuid`. -/
def upsertByEuid (w : World) (s : Store) (msg : Message) (roomNum : Nat) :
    Store × Except Bytes Nat :=
  if msg.euid = [] then (s, .error (bytes "a groupware object needs an euid"))
  else
    let old := findByEuid s roomNum msg.euid
    if hooked s roomNum msg.euid then
      match recordRevision w s roomNum msg.euid msg.raw with
      | (s', .unchanged) => (s', .error (bytes "no changes"))
      | (s', .error err) =>
        (s', .error (if err = [] then bytes "the page history could not be written" else err))
      | (s', .recorded) => replaceByEuid w s' msg roomNum old
      | (s', .noPrevious) => replaceByEuid w s' msg roomNum old
    else replaceByEuid w s msg roomNum old

section Rules

variable {w : World} {s : Store} {P : Store → Prop} {room : Nat}

/-- What an insertion into the room and the deletion of what is replaced keep, replacing keeps. -/
theorem replaceByEuid_rule {msg : Message} {old : Option Nat} (h : P s)
    (hinsert : ∀ u, P u → P (insertMessage w u msg [room]).1)
    (hdelete : ∀ u m, old = some m → P u → P (deleteMessage w u room m).1) :
    P (replaceByEuid w s msg room old).1 := by
  have hins := hinsert s h
  unfold replaceByEuid
  split
  · next heq => rw [heq] at hins; exact hins
  · next created heq =>
    rw [heq] at hins
    cases old with
    | none => exact hins
    | some n =>
      simp only
      split
      · exact hins
      · exact hdelete _ n rfl hins

theorem recordRevision_rule {page newRaw : Bytes} (h : P s)
    (hreplace : ∀ msg, P (replaceByEuid w s msg room (findByEuid s room (historyEuid page))).1) :
    P (recordRevision w s room page newRaw).1 := by
  unfold recordRevision
  split
  · exact h
  cases (findByEuid s room page).filter (0 < ·) with
  | none => exact h
  | some oldNum =>
    simp only
    cases loadMessage s oldNum with
    | none => exact h
    | some old =>
      simp only
      split
      · exact h
      split
      · exact h
      have hup : P (upsertHistory w s
          (recordMessage w s room page old (Diff.unifiedDefault newRaw old.raw)) room).1 := by
        unfold upsertHistory
        split
        · exact h
        · exact hreplace _
      split
      · next heq => rw [heq] at hup; exact hup
      · next heq => rw [heq] at hup; exact hup

/-- What replacing the object and its history keeps, a save keeps. -/
theorem upsertByEuid_rule {msg : Message} (h : P s)
    (hreplace : ∀ u msg' euid, euid = msg.euid ∨ euid = historyEuid msg.euid → P u →
      P (replaceByEuid w u msg' room (findByEuid s room euid)).1) :
    P (upsertByEuid w s msg room).1 := by
  have hrecord : P (recordRevision w s room msg.euid msg.raw).1 :=
    recordRevision_rule h fun msg' => hreplace s msg' _ (.inr rfl) h
  unfold upsertByEuid
  split
  · exact h
  split
  · split
    · next heq => rw [heq] at hrecord; exact hrecord
    · next heq => rw [heq] at hrecord; exact hrecord
    · next heq => rw [heq] at hrecord; exact hreplace _ _ _ (.inl rfl) hrecord
    · next heq => rw [heq] at hrecord; exact hreplace _ _ _ (.inl rfl) hrecord
  · exact hreplace _ _ _ (.inl rfl) h

end Rules

/-- The call the hook makes is a call of `UpsertByEuid` itself. -/
theorem upsertByEuid_history (w : World) (s : Store) {msg : Message} (roomNum : Nat)
    (h : isHistoryEuid msg.euid = true) :
    upsertByEuid w s msg roomNum = upsertHistory w s msg roomNum := by
  simp [upsertByEuid, upsertHistory, hooked, h]

end QuackMail.Wiki

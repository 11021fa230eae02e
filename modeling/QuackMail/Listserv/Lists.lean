import QuackMail.Store.Expiry
import QuackMail.Store.Rights

/-! # Mailing lists

The lists of `listserv.cpp`: `GetList`, `SetList`, `RemoveList`, `SetField` and
`ResolveAddress`.  A list is a row of `citadel_lists`; its room, the users and the other
tables are those of the directory.
-/

namespace QuackMail.Listserv

open Citadel

/-! ## The tables -/

inductive Mode where
  | post
  | digest
  | both
  deriving DecidableEq

inductive PostPolicy where
  | anyone
  | subscribers
  | moderated
  deriving DecidableEq

/-- `List`: a row of `citadel_lists` with the display name of its room. -/
structure MailList where
  roomNum : Nat
  address : Bytes
  displayName : Bytes
  enabled : Bool
  mode : Mode
  postPolicy : PostPolicy
  replyToList : Bool
  subjectTag : Bytes
  footer : Bytes
  digestIntervalSecs : Int
  digestMax : Int
  lastSent : Nat
  lastDigest : Nat
  lastDigestAt : Int
  deriving DecidableEq

structure Tables where
  dir : Directory
  lists : List MailList

/-! ## Lists -/

def displayNameOf (d : Directory) (roomNum : Nat) : Bytes :=
  match getRoomByNum d.store roomNum with
  | some _ => ((labelOf d roomNum).map RoomLabel.displayName).getD []
  | none => []

/-- `GetList`. -/
def getList (t : Tables) (roomNum : Nat) : Option MailList :=
  (t.lists.find? fun l => l.roomNum = roomNum).map fun l =>
    { l with displayName := displayNameOf t.dir roomNum }

/-- `DefaultAddress`. -/
def defaultAddress (displayName : Bytes) : Bytes :=
  bytes "room_" ++ (lower displayName).map fun c => if c = ch ' ' then ch '_' else c

def reservedSuffixes : List Bytes :=
  [bytes "-subscribe", bytes "-unsubscribe", bytes "-bounces", bytes "-request", bytes "-help"]

/-- `s` is longer than `suffix` and ends in it. -/
def endsIn (s suffix : Bytes) : Bool := decide (suffix.length < s.length) && suffix.isSuffixOf s

/-- The flags of a room that may not be a list. -/
def isClosed (room : Room) : Bool :=
  decide (0 < room.mailboxOwner) || hasFlag room qrMailbox || hasFlag room qrPrivate ||
    hasFlag room qrPassworded

/-- The row `SetList` writes, from what the caller gave. -/
def settled (t : Tables) (list : MailList) : MailList :=
  { list with
    address := lower
      (if list.address = [] then defaultAddress (displayNameOf t.dir list.roomNum)
      else list.address)
    digestIntervalSecs := if list.digestIntervalSecs ≤ 0 then 86400 else list.digestIntervalSecs
    digestMax := if list.digestMax ≤ 0 then 50 else list.digestMax }

/-- Why `SetList` refuses the row. -/
def listRefusal (t : Tables) (row : MailList) : Option Bytes :=
  if ch '@' ∈ row.address then some (bytes "address must be a local part, without a domain")
  else
    match reservedSuffixes.find? (endsIn row.address) with
    | some suffix =>
      some (bytes "address may not end in '" ++ suffix ++ bytes "' (reserved for list commands)")
    | none =>
      if t.lists.any fun l => l.address = row.address ∧ l.roomNum ≠ row.roomNum then
        some (bytes "another list already uses the address '" ++ row.address ++ bytes "'")
      else if 0 < (getOrAssignUserNum t.dir row.address).2 then
        some (bytes "'" ++ row.address ++ bytes "' is a local user")
      else none

/-- An `UPDATE` of the row of a room; the watermarks stay. -/
def updateRow (row l : MailList) : MailList :=
  if l.roomNum = row.roomNum then
    { row with
      lastSent := l.lastSent, lastDigest := l.lastDigest, lastDigestAt := l.lastDigestAt }
  else l

/-- `SetList`; `saves` is whether the last statement succeeds.  A new list starts at the
    newest message of its room. -/
def setList (t : Tables) (list : MailList) (saves : Bool) : Tables × Except Bytes Unit :=
  match getRoomByNum t.dir.store list.roomNum with
  | none => (t, .error (bytes "no such room"))
  | some room =>
    if isClosed room then
      (t, .error (bytes "a mailbox, private or passworded room cannot be a mailing list"))
    else
      let row := settled t list
      match listRefusal t row with
      | some err => (t, .error err)
      | none =>
        if t.lists.any fun l => l.roomNum = row.roomNum then
          if saves then ({ t with lists := t.lists.map (updateRow row) }, .ok ())
          else (t, .error (bytes "could not update the list"))
        else if saves then
          ({ t with
              lists := t.lists ++ [{ row with
                lastSent := room.highestMsg, lastDigest := room.highestMsg, lastDigestAt := 0 }] },
            .ok ())
        else (t, .error (bytes "could not create the list"))

/-- `RemoveList`. -/
def removeList (t : Tables) (roomNum : Nat) : Tables :=
  { t with lists := t.lists.filter fun l => l.roomNum ≠ roomNum }

/-! ## Addressing -/

inductive CommandKind where
  | post
  | subscribe
  | unsubscribe
  | confirm
  | help
  | bounce
  deriving DecidableEq

structure Command where
  kind : CommandKind
  roomNum : Nat
  token : Bytes
  deriving DecidableEq

/-- The enabled list at an address. -/
def load (t : Tables) (address : Bytes) : Option MailList :=
  (t.lists.find? fun l => l.address = address ∧ l.enabled = true).bind fun l =>
    getList t l.roomNum

def kSuffixes : List (Bytes × CommandKind) :=
  [(bytes "-subscribe", .subscribe), (bytes "-unsubscribe", .unsubscribe),
    (bytes "-bounces", .bounce), (bytes "-request", .help), (bytes "-help", .help)]

/-- One suffix of the loop of `ResolveAddress`. -/
def trySuffix (t : Tables) (name : Bytes) (s : Bytes × CommandKind) : Option (MailList × Command) :=
  if endsIn name s.1 then
    (load t (name.take (name.length - s.1.length))).map fun l => (l, ⟨s.2, l.roomNum, []⟩)
  else none

/-- The split at the first `-confirm-`; the token keeps its case. -/
def tryConfirm (t : Tables) (localPart : Bytes) : Option (MailList × Command) :=
  match find (bytes "-confirm-") (lower localPart) with
  | some conf =>
    (load t ((lower localPart).take conf)).map fun l =>
      (l, ⟨.confirm, l.roomNum, localPart.drop (conf + 9)⟩)
  | none => none

/-- `ResolveAddress`. -/
def resolveAddress (t : Tables) (localPart : Bytes) : Option (MailList × Command) :=
  match kSuffixes.findSome? (trySuffix t (lower localPart)) with
  | some r => some r
  | none =>
    match tryConfirm t localPart with
    | some r => some r
    | none => (load t (lower localPart)).map fun l => (l, ⟨.post, l.roomNum, []⟩)

end QuackMail.Listserv

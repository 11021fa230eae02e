import QuackMail.Store.Tables

/-! # Messages and rooms

`InsertMessage`, `Unlink`, `DeleteMessage`, `MoveMessage`, `RoomChangeToken` and
`RoomChangesSince` of `citadel_store.cpp`.  An operation returns the store it
leaves and what it answers.
-/

namespace QuackMail.Citadel

/-- The owners of the personal rooms among `rooms`, each once. -/
def mailboxOwners (s : Store) : List Nat → List Int → List Int
  | [], owners => owners
  | room :: rooms, owners =>
    let owner := (getRoomByNum s room).elim 0 Room.mailboxOwner
    if owner > 0 ∧ owner ∉ owners then mailboxOwners s rooms (owners ++ [owner])
    else mailboxOwners s rooms owners

/-- The first owner past the quota, by name. -/
def overQuota (s : Store) : List Int → Option Bytes
  | [] => none
  | owner :: owners =>
    let who := usernameOf s owner
    if who ≠ [] ∧ isOver s who then some who else overQuota s owners

/-- The quota backstop of `InsertMessage`. -/
def quotaRefusal (s : Store) (rooms : List Nat) : Option Bytes :=
  if getConfig s (bytes "qm_quota_enforce_store") (bytes "1") = bytes "1" then
    (overQuota s (mailboxOwners s rooms [])).map
      (fun who => bytes "mailbox is over its storage quota: " ++ who)
  else none

/-- `UPDATE citadel_rooms SET highest_msg = greatest(highest_msg, $2) …`. -/
def bumpHighest (s : Store) (roomNum msgnum : Nat) : Store :=
  { s with
    rooms := s.rooms.map (fun r =>
      if r.roomNum = roomNum then { r with highestMsg := max r.highestMsg msgnum } else r) }

/-- `INSERT OR IGNORE INTO citadel_room_msgs`, and the highest number of the room. -/
def link (s : Store) (roomNum msgnum : Nat) : Store :=
  bumpHighest
    (if messageInRoom s roomNum msgnum then s
      else { s with roomMsgs := s.roomMsgs ++ [⟨roomNum, msgnum⟩] })
    roomNum msgnum

/-- The message as its row is written, under the number drawn for it. -/
def storedRow (w : World) (s : Store) (msg : Message) : Row :=
  let sized := { msg with msgnum := s.seq }
  ⟨sized, messageSize w sized (getConfig s (bytes "c_nodename") (bytes "quackcit"))⟩

/-- `InsertMessage`: one transaction; the number drawn is not given back when it is
    rolled back. -/
def insertMessage (w : World) (s : Store) (msg : Message) (rooms : List Nat) :
    Store × Except Bytes Nat :=
  match quotaRefusal s rooms with
  | some err => (s, .error err)
  | none =>
    match w.fault msg with
    | some err => ({ s with seq := s.seq + 1 }, .error err)
    | none =>
      let stored := { s with messages := s.messages ++ [storedRow w s msg], seq := s.seq + 1 }
      (rooms.foldl (fun t room => link t room s.seq) stored, .ok s.seq)

/-- `INSERT OR REPLACE INTO citadel_room_tombstones`. -/
def putTombstone (s : Store) (t : Tombstone) : Store :=
  { s with
    tombstones :=
      s.tombstones.filter (fun u => ¬(u.roomNum = t.roomNum ∧ u.seq = t.seq)) ++ [t] }

/-- `Unlink`: only the room pointer goes; the tombstone is keyed by the euid. -/
def unlink (w : World) (s : Store) (roomNum msgnum : Nat) : Store :=
  let euid := (findRow s msgnum).elim [] (fun r => r.msg.euid)
  let removed := { s with roomMsgs := s.roomMsgs.filter (· ≠ ⟨roomNum, msgnum⟩), seq := s.seq + 1 }
  putTombstone removed ⟨roomNum, s.seq, euid, msgnum, w.now⟩

def deleteMessage (w : World) (s : Store) (roomNum msgnum : Nat) : Store × Except Bytes Unit :=
  if messageInRoom s roomNum msgnum then (unlink w s roomNum msgnum, .ok ())
  else (s, .error (bytes "message not found in this room"))

def moveMessage (w : World) (s : Store) (fromRoom toRoom msgnum : Nat) (isCopy : Bool) :
    Store × Except Bytes Unit :=
  if messageInRoom s fromRoom msgnum then
    match getRoomByNum s toRoom with
    | none => (s, .error (bytes "no such target room"))
    | some _ =>
      if fromRoom = toRoom then (s, .ok ())
      else if isCopy then (link s toRoom msgnum, .ok ())
      else (unlink w (link s toRoom msgnum) fromRoom msgnum, .ok ())
  else (s, .error (bytes "message not found in this room"))

/-! ## What a call leaves -/

section Calls

variable {w : World} {s s' : Store} {msg : Message} {rooms : List Nat}

/-- A message that is refused leaves at most a number that was drawn. -/
theorem insertMessage_refused {err : Bytes} (h : insertMessage w s msg rooms = (s', .error err)) :
    (quotaRefusal s rooms ≠ none ∧ s' = s) ∨
      (w.fault msg ≠ none ∧ s' = { s with seq := s.seq + 1 }) := by
  unfold insertMessage at h
  split at h
  · next hquota => exact .inl ⟨by simp [hquota], (Prod.mk.inj h).1.symm⟩
  split at h
  · next hfault => exact .inr ⟨by simp [hfault], (Prod.mk.inj h).1.symm⟩
  · cases h

/-- One that is stored was refused by nothing, has the next number and is linked. -/
theorem insertMessage_accepted {n : Nat} (h : insertMessage w s msg rooms = (s', .ok n)) :
    quotaRefusal s rooms = none ∧ w.fault msg = none ∧ n = s.seq ∧
      s' = rooms.foldl (fun t room => link t room s.seq)
        { s with messages := s.messages ++ [storedRow w s msg], seq := s.seq + 1 } := by
  unfold insertMessage at h
  split at h
  · cases h
  split at h
  · cases h
  · next hquota _ hfault =>
    obtain ⟨rfl, hn⟩ := Prod.mk.inj h
    exact ⟨hquota, hfault, (Except.ok.inj hn).symm, rfl⟩

/-- A message is moved only from where it is into another room, which exists. -/
theorem moveMessage_rule {P : Store → Prop} {fromRoom toRoom msgnum : Nat} {isCopy : Bool}
    (hstays : ¬(messageInRoom s fromRoom msgnum = true ∧ (getRoomByNum s toRoom).isSome = true ∧
      fromRoom ≠ toRoom) → P s)
    (hmoves : messageInRoom s fromRoom msgnum = true → (getRoomByNum s toRoom).isSome = true →
      fromRoom ≠ toRoom →
        P (if isCopy then link s toRoom msgnum
          else unlink w (link s toRoom msgnum) fromRoom msgnum)) :
    P (moveMessage w s fromRoom toRoom msgnum isCopy).1 := by
  unfold moveMessage
  by_cases hin : messageInRoom s fromRoom msgnum = true
  swap
  · rw [if_neg hin]
    exact hstays fun h => hin h.1
  rw [if_pos hin]
  cases hroom : getRoomByNum s toRoom with
  | none => exact hstays fun h => by simp [hroom] at h
  | some target =>
    by_cases hsame : fromRoom = toRoom
    · simp only [if_pos hsame]
      exact hstays fun h => h.2.2 hsame
    · have hmoved := hmoves hin (by simp [hroom]) hsame
      simp only [if_neg hsame]
      cases isCopy with
      | true => exact hmoved
      | false => exact hmoved

end Calls

/-! ## What changed in a room -/

/-- `RoomChange`. -/
structure RoomChange where
  seq : Nat
  euid : Bytes
  msgnum : Nat
  deleted : Bool

/-- `RoomChangeToken`: the largest number anything in the room has reached. -/
def roomChangeToken (s : Store) (roomNum : Nat) : Nat :=
  max (((s.roomMsgs.filter (fun p => p.roomNum = roomNum)).map Pointer.msgnum).max?.getD 0)
    (((s.tombstones.filter (fun t => t.roomNum = roomNum)).map Tombstone.seq).max?.getD 0)

/-- The additions since `since`: pointers joined with their messages. -/
def additionsSince (s : Store) (roomNum since : Nat) : List RoomChange :=
  (s.messages.filter (fun r => ⟨roomNum, r.msg.msgnum⟩ ∈ s.roomMsgs ∧ r.msg.msgnum > since)).map
    (fun r => ⟨r.msg.msgnum, r.msg.euid, r.msg.msgnum, false⟩)

def removalsSince (s : Store) (roomNum since : Nat) : List RoomChange :=
  (s.tombstones.filter (fun t => t.roomNum = roomNum ∧ t.seq > since)).map
    (fun t => ⟨t.seq, t.euid, t.msgnum, true⟩)

/-- `RoomChangesSince`: both halves in one ordered pass. -/
def roomChangesSince (s : Store) (roomNum since : Nat) : List RoomChange :=
  (additionsSince s roomNum since ++ removalsSince s roomNum since).insertionSort
    (fun c d => c.seq ≤ d.seq)

end QuackMail.Citadel

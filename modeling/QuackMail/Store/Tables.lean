import QuackMail.Bytes
import Mathlib.Algebra.Ring.Int.Defs
import Mathlib.Data.List.Sort

/-! # The tables of the store

The rows of `EnsureCitadelSchema` that messages and rooms live in, as lists, and
the queries over them.  `World` is what one call takes from outside the database:
the clock, random bytes, the error a message insert may meet and the rendering of
a message that is not stored as RFC 822.
-/

namespace QuackMail.Citadel

/-- `citadel::Message`. -/
structure Message where
  msgnum : Nat
  euid : Bytes
  author : Bytes
  authorUsernum : Int
  recipient : Bytes
  node : Bytes
  msgtime : Int
  subject : Bytes
  formatType : Int
  references : Bytes
  originRoom : Bytes
  raw : Bytes
  deriving DecidableEq, Inhabited

/-- A message with every field at its default. -/
def Message.blank : Message := ⟨0, [], [], 0, [], [], 0, [], 0, [], [], []⟩

/-- A row of `citadel_messages`; `size_bytes` is -1 where it is not computed yet. -/
structure Row where
  msg : Message
  sizeBytes : Int
  deriving DecidableEq

/-- The columns of `citadel_rooms` the store reads. -/
structure Room where
  roomNum : Nat
  floorNum : Int
  qrFlags : Nat
  defaultView : Int
  mailboxOwner : Int
  highestMsg : Nat
  deriving DecidableEq

/-- A row of `citadel_room_msgs`. -/
structure Pointer where
  roomNum : Nat
  msgnum : Nat
  deriving DecidableEq

/-- A row of `citadel_room_tombstones`. -/
structure Tombstone where
  roomNum : Nat
  seq : Nat
  euid : Bytes
  msgnum : Nat
  deletedAt : Int
  deriving DecidableEq

/-- A row of `quackmail_quotas`; the row with username `""` is the site default. -/
structure Limit where
  username : Bytes
  limitBytes : Int
  enabled : Bool

structure Store where
  messages : List Row
  roomMsgs : List Pointer
  tombstones : List Tombstone
  rooms : List Room
  /-- the number `nextval('citadel_msg_seq')` returns next -/
  seq : Nat
  config : List (Bytes × Bytes)
  /-- `citadel_users`: name and number -/
  users : List (Bytes × Int)
  /-- `quackmail_users`: the names that have credentials -/
  credentials : List Bytes
  quotas : List Limit

/-- What a call takes from outside the database. -/
structure World where
  now : Int
  /-- the bytes `RandomHex(2)` and `RandomHex(4)` draw -/
  random2 : List Byte
  random4 : List Byte
  /-- the error that some statement of the transaction storing a message meets -/
  fault : Message → Option Bytes
  /-- `RenderRfc822` of a message that is not stored as RFC 822 -/
  render : Message → Bytes → Bytes

/-! ## Queries -/

def getConfig (s : Store) (name dflt : Bytes) : Bytes :=
  match s.config.find? (fun kv => kv.1 = name) with
  | some kv => kv.2
  | none => dflt

def getRoomByNum (s : Store) (roomNum : Nat) : Option Room :=
  s.rooms.find? (fun r => r.roomNum = roomNum)

/-- `SELECT … FROM citadel_messages WHERE msgnum = $1`. -/
def findRow (s : Store) (msgnum : Nat) : Option Row :=
  s.messages.find? (fun r => r.msg.msgnum = msgnum)

def loadMessage (s : Store) (msgnum : Nat) : Option Message := (findRow s msgnum).map Row.msg

def messageInRoom (s : Store) (roomNum msgnum : Nat) : Bool :=
  decide (⟨roomNum, msgnum⟩ ∈ s.roomMsgs)

/-- `RoomMessages` with the filter `"all"`: the numbers in ascending order. -/
def roomMessages (s : Store) (roomNum : Nat) : List Nat :=
  ((s.roomMsgs.filter (fun p => p.roomNum = roomNum)).map Pointer.msgnum).insertionSort (· ≤ ·)

/-- The rows a room points at whose euid is `euid`. -/
def rowsByEuid (s : Store) (roomNum : Nat) (euid : Bytes) : List Nat :=
  (s.messages.filter (fun r => r.msg.euid = euid ∧ ⟨roomNum, r.msg.msgnum⟩ ∈ s.roomMsgs)).map
    (fun r => r.msg.msgnum)

/-- `FindByEuid`: the newest of them, `none` for -1. -/
def findByEuid (s : Store) (roomNum : Nat) (euid : Bytes) : Option Nat :=
  if euid = [] then none else (rowsByEuid s roomNum euid).max?

/-! ## Quota -/

/-- `SELECT username FROM citadel_users WHERE usernum = $1`, `""` for none. -/
def usernameOf (s : Store) (usernum : Int) : Bytes :=
  match s.users.find? (fun u => u.2 = usernum) with
  | some u => u.1
  | none => []

/-- `GetOrAssignUserNum` of a name `citadel_users` holds already. -/
def userNum (s : Store) (username : Bytes) : Int :=
  if username ∈ s.credentials then
    match s.users.find? (fun u => u.1 = username) with
    | some u => u.2
    | none => 0
  else 0

/-- The user's own row wins over the default row. -/
def limitFor (s : Store) (username : Bytes) : Limit :=
  match s.quotas.find? (fun l => l.username = username) with
  | some l => l
  | none =>
    match s.quotas.find? (fun l => l.username = []) with
    | some l => l
    | none => ⟨username, 0, true⟩

/-- Whether some room of the user points at the message. -/
def keptBy (s : Store) (usernum : Int) (msgnum : Nat) : Bool :=
  s.roomMsgs.any (fun p => p.msgnum == msgnum &&
    s.rooms.any (fun r => r.roomNum == p.roomNum && r.mailboxOwner == usernum))

def int64Max : Int := 0x7fffffffffffffff

/-- `Int` of a sum: one that is no `int64_t` throws, which is caught, and counts as 0. -/
def toBigint (n : Int) : Int := if n ≤ int64Max then n else 0

def computeUsage (s : Store) (username : Bytes) : Int :=
  let usernum := userNum s username
  if usernum ≤ 0 then 0
  else
    toBigint ((s.messages.filter (fun r =>
      r.sizeBytes > 0 && keptBy s usernum r.msg.msgnum)).map Row.sizeBytes).sum

/-- `Info::limit_bytes`, 0 where there is none. -/
def limitBytes (s : Store) (username : Bytes) : Int :=
  let lim := limitFor s username
  if lim.enabled then lim.limitBytes else 0

/-- `quota::IsOver`; without a limit nothing is summed up. -/
def isOver (s : Store) (username : Bytes) : Bool :=
  decide (limitBytes s username > 0) && decide (computeUsage s username ≥ limitBytes s username)

/-- What 64 bits keep of a number, read as two's complement. -/
def wrap64 (n : Int) : Int := Int.bmod n 18446744073709551616

/-- `quota::WouldExceed`. -/
def wouldExceed (s : Store) (username : Bytes) (extraBytes : Int) : Bool :=
  decide (limitBytes s username > 0) &&
    decide (wrap64 (computeUsage s username + if extraBytes < 0 then 0 else extraBytes) >
      limitBytes s username)

def messageSize (w : World) (msg : Message) (node : Bytes) : Int :=
  if msg.formatType = 4 then msg.raw.length else (w.render msg node).length

end QuackMail.Citadel

import QuackMail.Files.Area

/-! # FTP

The commands of `HandleFtp` that log in, move between areas, list, and fetch, store, remove
and rename files.  The area a session is in, and the name that waits for RNTO, stay when the
user changes.
-/

namespace QuackMail.Files.Ftp

/-! ## Commands and replies -/

/-- How the data connection of a command goes. -/
structure DataChannel where
  opens : Bool
  /-- what `ReadAvailable` gives, until it gives nothing more -/
  chunks : List Bytes
  /-- whether the peer has ended the transfer, rather than the connection failed -/
  orderly : Bool

inductive Command where
  | user (arg : Bytes)
  | pass (arg : Bytes)
  /-- AUTH, and whether the handshake succeeds -/
  | auth (arg : Bytes) (handshake : Bool)
  | cwd (arg : Bytes)
  | cdup
  /-- LIST, NLST and MLSD -/
  | list (data : DataChannel)
  | mlst (arg : Bytes)
  | size (arg : Bytes)
  | mdtm (arg : Bytes)
  | retr (arg : Bytes) (data : DataChannel)
  | stor (arg : Bytes) (data : DataChannel)
  | dele (arg : Bytes)
  | rnfr (arg : Bytes)
  | rnto (arg : Bytes)
  | quit
  | unimplemented

/-- A reply code, and what is sent beside it: a listing, the facts of a file, or its octets. -/
structure Reply where
  code : Nat
  listed : List (Bytes × Nat) := []
  octets : List Octet := []

/-! ## Sessions -/

structure Session where
  authed : Bool
  userGiven : Bytes
  username : Bytes
  inRoom : Bool
  room : Area
  renameFrom : Bytes
  tls : Bool
  ended : Bool

/-- What a session takes from elsewhere: whether TLS is on from the start or may be asked
    for, whether a login is allowed without it, and `auth::Verify`. -/
structure Server where
  implicitTls : Bool
  startTlsEnabled : Bool
  allowCleartext : Bool
  verify : Bytes → Bytes → Bool

def opening (v : Server) : Session :=
  ⟨false, [], [], false, ⟨0, [], 0⟩, [], v.implicitTls, false⟩

def kMaxUpload : Nat := 64 * 1024 * 1024

structure Outcome where
  session : Session
  shelf : Shelf
  reply : Reply
  disclosed : List Disclosed

def reply (s : Session) (shelf : Shelf) (code : Nat) (disclosed : List Disclosed := []) : Outcome :=
  ⟨s, shelf, { code := code }, disclosed⟩

section Commands

variable (v : Server) (acc : Access) (d : Depot)

/-- A directory as it was asked for: trailing slashes go, unless one is all there is. -/
def wanted (arg : Bytes) : Bytes :=
  match arg.rdropWhile (· == ch '/') with
  | [] => arg.take 1
  | want => want

/-- `CmdCwd`. -/
def cwd (s : Session) (shelf : Shelf) (arg : Bytes) : Outcome :=
  let want := wanted arg
  if want = [] ∨ want = bytes "/" ∨ want = bytes ".." then
    reply { s with inRoom := false } shelf 250
  else
    let want := if want.head? = some (ch '/') then want.drop 1 else want
    if ch '/' ∈ want then reply s shelf 550
    else
      match findArea acc s.username want with
      | none => reply s shelf 550
      | some area => reply { s with room := area, inRoom := true } shelf 250

/-- `SendListing`. -/
def sendListing (s : Session) (shelf : Shelf) (data : DataChannel) : Outcome :=
  if data.opens = false then reply s shelf 425
  else if s.inRoom = false then
    { reply s shelf 226 with
      reply := { code := 226, listed := (visibleAreas acc s.username).map fun area =>
        (area.displayName, 0) } }
  else
    { reply s shelf 226 [.names s.room] with
      reply := { code := 226, listed := (listFiles shelf s.room.roomNum).map fun f =>
        (f.name, f.content.length) } }

/-- MLST, SIZE and MDTM: the facts of one file. -/
def facts (s : Session) (shelf : Shelf) (arg : Bytes) (code : Nat) : Outcome :=
  if s.inRoom = false then reply s shelf 550
  else
    match getFile shelf (s.room.roomNum, arg) with
    | none => reply s shelf 550 [.names s.room]
    | some f =>
      { reply s shelf code [.names s.room] with
        reply := { code := code, listed := [(f.name, f.content.length)] } }

/-- `CmdRetr`. -/
def cmdRetr (s : Session) (shelf : Shelf) (arg : Bytes) (data : DataChannel) : Outcome :=
  if s.inRoom = false then reply s shelf 550
  else if canDownload acc s.username s.room = false then reply s shelf 550
  else
    match getFile shelf (s.room.roomNum, arg) with
    | none => reply s shelf 550 [.names s.room]
    | some f =>
      if data.opens = false then reply s shelf 425 [.names s.room]
      else
        { reply s shelf 226 [.names s.room, .reply (fromFile s.room f.content)] with
          reply := { code := 226, octets := fromFile s.room f.content } }

/-- The loop over the data of an upload: a prefix that is too large ends it. -/
def received : Bytes → List Bytes → Option Bytes
  | content, [] => some content
  | content, chunk :: chunks =>
    if kMaxUpload < (content ++ chunk).length then none else received (content ++ chunk) chunks

/-- `CmdStor`.  The loop ends in the same way when the connection fails. -/
def cmdStor (s : Session) (shelf : Shelf) (arg : Bytes) (data : DataChannel) : Outcome :=
  if s.inRoom = false then reply s shelf 550
  else if canUpload acc s.username s.room = false then reply s shelf 550
  else if sanitizeName arg = [] then reply s shelf 553
  else if data.opens = false then reply s shelf 425
  else
    match received [] data.chunks with
    | none => reply s shelf 552
    | some content =>
      match putFile d s.room.roomNum (sanitizeName arg) ⟨content, [], [], s.username⟩ shelf with
      | none => reply s shelf 452
      | some shelf' => reply s shelf' 226 [.deposit s.room (fromPeer content)]

/-- `CmdDele`. -/
def cmdDele (s : Session) (shelf : Shelf) (arg : Bytes) : Outcome :=
  if s.inRoom = false then reply s shelf 550
  else if canPost acc s.username s.room = false then reply s shelf 550
  else
    match removeFile s.room.roomNum arg shelf with
    | none => reply s shelf 550 [.names s.room]
    | some shelf' => reply s shelf' 250 [.names s.room]

/-- RNFR. -/
def rnfr (s : Session) (shelf : Shelf) (arg : Bytes) : Outcome :=
  if s.inRoom = false then reply s shelf 550
  else
    match getFile shelf (s.room.roomNum, arg) with
    | none => reply s shelf 550 [.names s.room]
    | some f => reply { s with renameFrom := f.name } shelf 350 [.names s.room]

/-- RNTO: a store under the new name and a removal of the old one, whose failure does not
    count. -/
def rnto (s : Session) (shelf : Shelf) (arg : Bytes) : Outcome :=
  if s.renameFrom = [] then reply s shelf 503
  else
    let s' := { s with renameFrom := [] }
    if canUpload acc s.username s.room = false then reply s' shelf 550
    else if sanitizeName arg = [] then reply s' shelf 550
    else
      match getFile shelf (s.room.roomNum, s.renameFrom) with
      | none => reply s' shelf 550 [.names s.room]
      | some f =>
        match putFile d s.room.roomNum (sanitizeName arg)
          ⟨f.content, f.contentType, f.description, f.uploader⟩ shelf with
        | none => reply s' shelf 550 [.names s.room]
        | some shelf' =>
          reply s' ((removeFile s.room.roomNum s.renameFrom shelf').getD shelf') 250
            [.names s.room, .deposit s.room (fromFile s.room f.content)]

/-- The login commands. -/
def login (s : Session) (shelf : Shelf) : Command → Outcome
  | .user arg =>
    let s' := { s with userGiven := arg, authed := false }
    if s.tls = false ∧ v.allowCleartext = false then reply s' shelf 534 else reply s' shelf 331
  | .pass arg =>
    if s.userGiven = [] then reply s shelf 503
    else if s.tls = false ∧ v.allowCleartext = false then reply s shelf 534
    else if v.verify s.userGiven arg = false then reply { s with userGiven := [] } shelf 530
    else reply { s with username := s.userGiven, authed := true } shelf 230
  | .auth arg handshake =>
    let kind := upper arg
    if s.tls then reply s shelf 534
    else if kind ≠ bytes "TLS" ∧ kind ≠ bytes "TLS-C" ∧ kind ≠ bytes "SSL" then reply s shelf 504
    else if v.startTlsEnabled = false then reply s shelf 431
    else if handshake then reply { s with tls := true } shelf 234
    else reply { s with ended := true } shelf 234
  | _ => reply { s with ended := true } shelf 221

/-- The commands for which a session has to be logged in. -/
def perform (s : Session) (shelf : Shelf) : Command → Outcome
  | .cwd arg => cwd acc s shelf arg
  | .cdup => reply { s with inRoom := false } shelf 250
  | .list data => sendListing acc s shelf data
  | .mlst arg => facts s shelf arg 250
  | .size arg => facts s shelf arg 213
  | .mdtm arg => facts s shelf arg 213
  | .retr arg data => cmdRetr acc s shelf arg data
  | .stor arg data => cmdStor acc d s shelf arg data
  | .dele arg => cmdDele acc s shelf arg
  | .rnfr arg => rnfr s shelf arg
  | .rnto arg => rnto acc d s shelf arg
  | _ => reply s shelf 502

def isLogin : Command → Bool
  | .user _ | .pass _ | .auth _ _ | .quit => true
  | _ => false

/-- One command of `HandleFtp`. -/
def handle (s : Session) (shelf : Shelf) (c : Command) : Outcome :=
  if isLogin c then login v s shelf c
  else if s.authed = false then reply s shelf 530
  else perform acc d s shelf c

end Commands

end QuackMail.Files.Ftp

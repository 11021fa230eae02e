import QuackMail.Bytes

/-! # File areas

A room with the directory flag holds files.  `filearea` keeps each file as a message that is
found by its name, and says who may list, fetch and deposit.
-/

namespace QuackMail.Files

/-! ## Areas -/

/-- A room as the front doors know it. -/
structure Area where
  roomNum : Nat
  displayName : Bytes
  qrFlags : Nat
  deriving DecidableEq

def qrDirectory : Nat := 32
def qrUpload : Nat := 64
def qrDownload : Nat := 128
def qrVisDir : Nat := 256

def hasFlag (area : Area) (flag : Nat) : Bool := area.qrFlags &&& flag != 0

/-- What the store says of users and rooms: `ListRooms` of all rooms, `ResolveRoomNumFor`,
    `EffectiveRights` and `RoomUnlocked`. -/
structure Access where
  listRooms : Bytes → List Area
  resolveRoomNum : Bytes → Nat → Option Area
  effectiveRights : Bytes → Area → Bytes
  roomUnlocked : Bytes → Area → Bool

variable (acc : Access) (user : Bytes) (area : Area)

def canPost : Bool :=
  decide ((if user = [] then ch 'p' else ch 'i') ∈ acc.effectiveRights user area)

def canAdminister : Bool :=
  decide (user ≠ [] ∧ ch 'a' ∈ acc.effectiveRights user area)

def isFileArea : Bool := hasFlag area qrDirectory

def canRead : Bool := decide (ch 'r' ∈ acc.effectiveRights user area)

/-- `CanList`. -/
def canList : Bool :=
  isFileArea area && canRead acc user area &&
    (hasFlag area qrVisDir || hasFlag area qrDownload || canPost acc user area)

/-- `CanDownload`. -/
def canDownload : Bool :=
  isFileArea area && hasFlag area qrDownload && canRead acc user area

/-- `CanUpload`. -/
def canUpload : Bool :=
  isFileArea area && hasFlag area qrUpload && canPost acc user area

/-- `VisibleAreas`. -/
def visibleAreas : List Area :=
  (acc.listRooms user).filter fun area =>
    isFileArea area && canList acc user area && acc.roomUnlocked user area

/-- `FindArea`. -/
def findArea (name : Bytes) : Option Area :=
  (visibleAreas acc user).find? fun area => lower area.displayName == lower name

/-! ## Names -/

/-- A byte that `SanitizeFilename` drops. -/
def unsafeByte (c : Byte) : Bool :=
  c < 0x20 || c == 0x7f || c == ch '"' || c == ch '\\' || c == ch '/' || c == ch ':'

/-- `http::SanitizeFilename` without its fallback. -/
def cleanName (name : Bytes) : Bytes :=
  ((name.filter (!unsafeByte ·)).dropWhile (· == ch '.')).take 200

def attachment : Bytes := bytes "attachment"

/-- `SanitizeFilename`. -/
def sanitizeFilename (name : Bytes) : Bytes :=
  if cleanName name = [] then attachment else cleanName name

/-- `SanitizeName`: the fallback is undone, where it was one. -/
def sanitizeName (name : Bytes) : Bytes :=
  if sanitizeFilename name = attachment ∧ find attachment name = none then []
  else sanitizeFilename name

/-! ## Files -/

/-- A name in a room. -/
abbrev Resource := Nat × Bytes

/-- A stored file: its message number, where it is, and what is found in the message. -/
structure Stored where
  msgnum : Nat
  resource : Resource
  contentType : Bytes
  content : Bytes
  subject : Bytes
  uploader : Bytes
  uploadedAt : Nat

/-- The files, the newest first, and the number of the next message. -/
structure Shelf where
  files : List Stored
  next : Nat

/-- What `PutFile` is given of a file beside its name. -/
structure Upload where
  content : Bytes
  contentType : Bytes
  description : Bytes
  uploader : Bytes

def Stored.name (f : Stored) : Bytes := f.resource.2

/-- The description of a file is its subject, where that is not the name. -/
def Stored.description (f : Stored) : Bytes := if f.subject = f.name then [] else f.subject

/-- `FindByEuid` and `LoadMessage`: the newest message of the name. -/
def getFile (shelf : Shelf) (x : Resource) : Option Stored :=
  shelf.files.find? fun f => decide (f.resource = x)

/-- `ListFiles`, the oldest first. -/
def listFiles (shelf : Shelf) (room : Nat) : List Stored :=
  (shelf.files.filter fun f => decide (f.resource.1 = room)).reverse

def octetStream : Bytes := bytes "application/octet-stream"

/-- `InsertMessage` of the message that `PutFile` builds.  `mime` is what the parser finds of
    a type and a content in the message that `BuildMessage` makes of them. -/
def insertFile (mime : Bytes → Bytes → Bytes × Bytes) (now : Nat) (x : Resource) (u : Upload)
    (shelf : Shelf) : Shelf :=
  let part := mime (if u.contentType = [] then octetStream else u.contentType) u.content
  let f : Stored := ⟨shelf.next, x, part.1, part.2,
    if u.description = [] then x.2 else u.description, u.uploader, now⟩
  ⟨f :: shelf.files, shelf.next + 1⟩

/-- `DeleteMessage`. -/
def unlinkFile (room msgnum : Nat) (shelf : Shelf) : Shelf :=
  { shelf with
    files := shelf.files.filter fun f => !decide (f.resource.1 = room ∧ f.msgnum = msgnum) }

/-- What the store is given at a request: the parser, the clock, and whether it is full. -/
structure Depot where
  mime : Bytes → Bytes → Bytes × Bytes
  now : Nat
  full : Bool

/-- `PutFile` as a whole: the new message, and the one it replaces is unlinked. -/
def putFile (d : Depot) (room : Nat) (name : Bytes) (u : Upload) (shelf : Shelf) : Option Shelf :=
  if sanitizeName name = [] then none
  else if d.full then none
  else
    let x := (room, sanitizeName name)
    let stored := insertFile d.mime d.now x u shelf
    some (match getFile shelf x with
      | none => stored
      | some old => unlinkFile room old.msgnum stored)

/-- `RemoveFile`. -/
def removeFile (room : Nat) (name : Bytes) (shelf : Shelf) : Option Shelf :=
  (getFile shelf (room, name)).map fun f => unlinkFile room f.msgnum shelf

/-! ## Octets -/

/-- An octet on its way, and the area of the file it was read from, if it was not sent by
    the peer.  The origin is history: no function of the source has it. -/
structure Octet where
  value : Byte
  origin : Option Area
  deriving DecidableEq

def fromFile (area : Area) (content : Bytes) : List Octet := content.map fun c => ⟨c, some area⟩

def fromPeer (data : Bytes) : List Octet := data.map fun c => ⟨c, none⟩

/-- What a request tells its user, or what it leaves in an area. -/
inductive Disclosed where
  /-- octets in a reply -/
  | reply (octets : List Octet)
  /-- octets that are stored in an area -/
  | deposit (area : Area) (octets : List Octet)
  /-- names of files of an area, or whether it has a file of a name -/
  | names (area : Area)
  deriving DecidableEq

/-- What a resource holds. -/
def filesAt (shelf : Shelf) (x : Resource) : List Stored :=
  shelf.files.filter fun f => decide (f.resource = x)

end QuackMail.Files

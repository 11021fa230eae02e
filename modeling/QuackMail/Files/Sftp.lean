import Mathlib.Algebra.Ring.Nat
import QuackMail.Files.Area

/-! # SFTP

`SftpServer::Dispatch` over the requests that concern files and listings.  A handle holds the
whole file; one that was opened for writing is stored when it is closed.
-/

namespace QuackMail.Files.Sftp

/-! ## Paths -/

def splitStep (parts : List Bytes) (part : Bytes) : List Bytes :=
  if part = bytes ".." then parts.dropLast
  else if part = [] ∨ part = bytes "." then parts
  else parts ++ [part]

/-- `SplitPath`. -/
def splitPath (path : Bytes) : List Bytes := (splitOn (ch '/') path).foldl splitStep []

/-! ## Requests and replies -/

inductive Request where
  | stat (path : Bytes)
  | fstat (handle : Bytes)
  | setStat
  | realPath (path : Bytes)
  | openDir (path : Bytes)
  | readDir (handle : Bytes)
  | openFile (path : Bytes) (pflags : Nat)
  | read (handle : Bytes) (offset len : Nat)
  /-- `ok` says that the packet had all its fields -/
  | write (handle : Bytes) (offset : Nat) (data : Bytes) (ok : Bool)
  | close (handle : Bytes)
  | remove (path : Bytes)
  | rename (source target : Bytes)
  | unsupported

/-- The status codes. -/
inductive Code where
  | ok
  | eof
  | noSuchFile
  | permissionDenied
  | failure
  | opUnsupported

structure Attrs where
  dir : Bool
  writable : Bool
  size : Nat
  mtime : Nat

inductive Reply where
  | status (code : Code) (message : Bytes)
  | handle (key : Bytes)
  | data (octets : List Octet)
  | names (entries : List (Bytes × Attrs))
  | path (parts : List Bytes)
  | attrs (a : Attrs)
  /-- `std::out_of_range`, which nothing catches -/
  | thrown

/-! ## Sessions -/

inductive Kind where
  | dir
  | read
  | write
  deriving DecidableEq

/-- `SftpServer::Handle`; the area is not set for the root. -/
structure Handle where
  kind : Kind
  path : List Bytes
  area : Option Area
  content : List Octet
  contentType : Bytes
  listed : Bool
  dirty : Bool

structure Session where
  username : Bytes
  nextHandle : Nat
  handles : List (Bytes × Handle)

def kMaxUpload : Nat := 64 * 1024 * 1024
def kMaxRead : Nat := 256 * 1024
def kMaxHandles : Nat := 64

def pfWrite : Nat := 2
def pfAppend : Nat := 4
def pfCreat : Nat := 8
def pfTrunc : Nat := 16
def pfExcl : Nat := 32

def hasBit (pflags bit : Nat) : Bool := pflags &&& bit != 0

def findHandle (s : Session) (key : Bytes) : Option Handle :=
  (s.handles.find? fun entry => decide (entry.1 = key)).map Prod.snd

def eraseHandle (s : Session) (key : Bytes) : List (Bytes × Handle) :=
  s.handles.filter fun entry => !decide (entry.1 = key)

def setHandle (s : Session) (key : Bytes) (hd : Handle) : Session :=
  { s with handles := (key, hd) :: eraseHandle s key }

/-- The key of a new handle, from a counter of 32 bits. -/
def addHandle (s : Session) (hd : Handle) : Session × Bytes :=
  let key := num s.nextHandle
  ({ setHandle s key hd with nextHandle := (s.nextHandle + 1) % 2 ^ 32 }, key)

/-- What becomes of a request. -/
structure Outcome where
  session : Session
  shelf : Shelf
  reply : Reply
  disclosed : List Disclosed

def answer (s : Session) (shelf : Shelf) (reply : Reply) (disclosed : List Disclosed := []) :
    Outcome := ⟨s, shelf, reply, disclosed⟩

def fail (s : Session) (shelf : Shelf) (code : Code) (message : String)
    (disclosed : List Disclosed := []) : Outcome :=
  ⟨s, shelf, .status code (bytes message), disclosed⟩

section Dispatch

variable (acc : Access) (mayCreateRoom : Bytes → Bool) (d : Depot)

/-- `resolve` of a path with an area. -/
def resolve (user : Bytes) (parts : List Bytes) : Option Area :=
  match parts with
  | [area] => findArea acc user area
  | [area, _] => findArea acc user area
  | _ => none

def fileName (parts : List Bytes) : Bytes := parts.getD 1 []

/-- `stat_path` of the root and of an area. -/
def statDir (user : Bytes) (parts : List Bytes) : Option Attrs :=
  if parts = [] then some ⟨true, mayCreateRoom user, 0, 0⟩
  else if 1 < parts.length then none
  else (resolve acc user parts).map fun area => ⟨true, canUpload acc user area, 0, 0⟩

def fileAttrs (user : Bytes) (area : Area) (f : Stored) : Attrs :=
  ⟨false, canPost acc user area, f.content.length, f.uploadedAt⟩

/-- `FXP_STAT`, `FXP_LSTAT`. -/
def stat (s : Session) (shelf : Shelf) (path : Bytes) : Outcome :=
  let parts := splitPath path
  let missing := fail s shelf .noSuchFile "No such file or directory"
  if parts.length < 2 then
    match statDir acc mayCreateRoom s.username parts with
    | none => missing
    | some a => answer s shelf (.attrs a)
  else
    match resolve acc s.username parts with
    | none => missing
    | some area =>
      match getFile shelf (area.roomNum, fileName parts) with
      | none => { missing with disclosed := [.names area] }
      | some f => answer s shelf (.attrs (fileAttrs acc s.username area f)) [.names area]

/-- `FXP_FSTAT`. -/
def fstat (s : Session) (shelf : Shelf) (key : Bytes) : Outcome :=
  match findHandle s key with
  | none => fail s shelf .failure "Invalid handle"
  | some hd =>
    match hd.kind with
    | .dir =>
      answer s shelf (.attrs ((statDir acc mayCreateRoom s.username hd.path).getD
        ⟨false, false, 0, 0⟩))
    | kind =>
      answer s shelf (.attrs ⟨false, decide (kind = .write), hd.content.length, d.now⟩)

/-- `FXP_OPENDIR`. -/
def openDir (s : Session) (shelf : Shelf) (path : Bytes) : Outcome :=
  let parts := splitPath path
  let area := resolve acc s.username parts
  if 1 < parts.length ∨ parts ≠ [] ∧ area = none then
    fail s shelf .noSuchFile "No such directory"
  else if kMaxHandles ≤ s.handles.length then fail s shelf .failure "Too many open handles"
  else
    let (s', key) := addHandle s ⟨.dir, parts, area, [], [], false, false⟩
    answer s' shelf (.handle key)

/-- `FXP_READDIR`. -/
def readDir (s : Session) (shelf : Shelf) (key : Bytes) : Outcome :=
  match findHandle s key with
  | none => fail s shelf .failure "Invalid handle"
  | some hd =>
    if hd.kind ≠ .dir then fail s shelf .failure "Invalid handle"
    else if hd.listed then fail s shelf .eof ""
    else
      let s' := setHandle s key { hd with listed := true }
      let self := (statDir acc mayCreateRoom s.username hd.path).getD ⟨false, false, 0, 0⟩
      let dots := [(bytes ".", self), (bytes "..", self)]
      match hd.area with
      | none =>
        answer s' shelf (.names (dots ++ (visibleAreas acc s.username).map fun area =>
          (area.displayName, ⟨true, canUpload acc s.username area, 0, 0⟩)))
      | some area =>
        answer s' shelf (.names (dots ++ (listFiles shelf area.roomNum).map fun f =>
          (f.name, fileAttrs acc s.username area f))) [.names area]

/-- `FXP_OPEN`, once the path is that of an area and a name. -/
def openIn (s : Session) (shelf : Shelf) (area : Area) (parts : List Bytes) (pflags : Nat) :
    Outcome :=
  let user := s.username
  let name := fileName parts
  let found := getFile shelf (area.roomNum, name)
  let seen := [Disclosed.names area]
  if hasBit pflags pfWrite then
    if hasBit pflags pfAppend then
      fail s shelf .opUnsupported "Appending to a stored file is not supported"
    else if canUpload acc user area = false then
      fail s shelf .permissionDenied "Uploads are not allowed here"
    else if found.isSome ∧ hasBit pflags pfExcl then fail s shelf .failure "File exists" seen
    else if found = none ∧ hasBit pflags pfCreat = false then
      fail s shelf .noSuchFile "No such file" seen
    else if sanitizeName name = [] then
      fail s shelf .permissionDenied "That file name is not allowed" seen
    else
      -- without TRUNC the handle starts from the current bytes
      let kept := if hasBit pflags pfTrunc then none else found
      let (s', key) := addHandle s ⟨.write, parts, some area,
        (kept.map fun f => fromFile area f.content).getD [],
        (kept.map Stored.contentType).getD [], false, true⟩
      answer s' shelf (.handle key) seen
  else
    match found with
    | none => fail s shelf .noSuchFile "No such file" seen
    | some f =>
      if canDownload acc user area = false then
        fail s shelf .permissionDenied "Downloads are not allowed here" seen
      else
        let (s', key) := addHandle s ⟨.read, parts, some area, fromFile area f.content, [],
          false, false⟩
        answer s' shelf (.handle key) seen

/-- `FXP_OPEN`. -/
def openFile (s : Session) (shelf : Shelf) (path : Bytes) (pflags : Nat) : Outcome :=
  let parts := splitPath path
  if parts.length < 2 then fail s shelf .noSuchFile "Not a file"
  else
    match resolve acc s.username parts with
    | none => fail s shelf .noSuchFile "No such file or directory"
    | some area =>
      if kMaxHandles ≤ s.handles.length then fail s shelf .failure "Too many open handles"
      else openIn acc s shelf area parts pflags

/-- `FXP_READ`. -/
def read (s : Session) (shelf : Shelf) (key : Bytes) (offset len : Nat) : Outcome :=
  match findHandle s key with
  | none => fail s shelf .failure "Invalid handle"
  | some hd =>
    if hd.kind = .dir then fail s shelf .failure "Invalid handle"
    else if hd.content.length ≤ offset then fail s shelf .eof ""
    else
      let octets := (hd.content.drop offset).take (min len kMaxRead)
      answer s shelf (.data octets) [.reply octets]

/-- `resize`, which only grows here. -/
def growTo (size : Nat) (content : List Octet) : List Octet :=
  content ++ List.replicate (size - content.length) ⟨0, none⟩

/-- `FXP_WRITE`.  The sum of offset and length is one of 64 bits. -/
def write (s : Session) (shelf : Shelf) (key : Bytes) (offset : Nat) (data : Bytes) (ok : Bool) :
    Outcome :=
  match findHandle s key with
  | none => fail s shelf .failure "Invalid handle"
  | some hd =>
    if ok = false ∨ hd.kind ≠ .write then fail s shelf .failure "Invalid handle"
    else
      let size := (offset + data.length) % 2 ^ 64
      if kMaxUpload < size then fail s shelf .failure "File too large"
      else
        let grown := growTo size hd.content
        if grown.length < offset then
          answer (setHandle s key { hd with content := grown }) shelf .thrown
        else
          let content := grown.take offset ++ fromPeer data ++ grown.drop (offset + data.length)
          answer (setHandle s key { hd with content := content, dirty := true }) shelf
            (.status .ok [])

/-- `FXP_CLOSE`. -/
def close (s : Session) (shelf : Shelf) (key : Bytes) : Outcome :=
  match findHandle s key with
  | none => fail s shelf .failure "Invalid handle"
  | some hd =>
    let s' := { s with handles := eraseHandle s key }
    match hd.kind, hd.area with
    | .write, some area =>
      if hd.dirty then
        let upload : Upload := ⟨hd.content.map Octet.value,
          if hd.contentType = [] then octetStream else hd.contentType, [], s.username⟩
        match putFile d area.roomNum (sanitizeName (fileName hd.path)) upload shelf with
        | none => fail s' shelf .failure "Could not store the file"
        | some shelf' => answer s' shelf' (.status .ok []) [.deposit area hd.content]
      else answer s' shelf (.status .ok [])
    | _, _ => answer s' shelf (.status .ok [])

/-- `FXP_REMOVE`. -/
def remove (s : Session) (shelf : Shelf) (path : Bytes) : Outcome :=
  let parts := splitPath path
  if parts.length ≠ 2 then fail s shelf .noSuchFile "No such file"
  else
    match resolve acc s.username parts with
    | none => fail s shelf .noSuchFile "No such file"
    | some area =>
      if canPost acc s.username area = false then
        fail s shelf .permissionDenied "You may not remove files here"
      else
        match removeFile area.roomNum (fileName parts) shelf with
        | none => fail s shelf .noSuchFile "No such file." [.names area]
        | some shelf' => answer s shelf' (.status .ok []) [.names area]

/-- `FXP_RENAME`, once both areas are known: a store under the new name and a removal of the
    old one, whose failure does not count. -/
def renameIn (s : Session) (shelf : Shelf) (source : Area) (name : Bytes) (target : Area)
    (newName : Bytes) : Outcome :=
  let dest := sanitizeName newName
  if canPost acc s.username source = false ∨ canUpload acc s.username target = false then
    fail s shelf .permissionDenied "You may not move files there"
  else if dest = [] ∨ (getFile shelf (target.roomNum, dest)).isSome then
    fail s shelf .failure "The destination already exists" [.names target]
  else
    match getFile shelf (source.roomNum, name) with
    | none => fail s shelf .noSuchFile "No such file" [.names target, .names source]
    | some f =>
      let seen := [Disclosed.names target, .names source]
      match putFile d target.roomNum dest ⟨f.content, f.contentType, f.description, f.uploader⟩
        shelf with
      | none => fail s shelf .failure "Could not store the file" seen
      | some shelf' =>
        answer s ((removeFile source.roomNum name shelf').getD shelf') (.status .ok [])
          (.deposit target (fromFile source f.content) :: seen)

/-- `FXP_RENAME`. -/
def rename (s : Session) (shelf : Shelf) (source target : Bytes) : Outcome :=
  let fp := splitPath source
  let tp := splitPath target
  match (if fp.length = 2 then resolve acc s.username fp else none) with
  | none => fail s shelf .noSuchFile "No such file"
  | some sourceArea =>
    match (if tp.length = 2 then resolve acc s.username tp else none) with
    | none => fail s shelf .noSuchFile "No such directory to move it to"
    | some targetArea =>
      renameIn acc d s shelf sourceArea (fileName fp) targetArea (fileName tp)

/-- `Dispatch`. -/
def dispatch (s : Session) (shelf : Shelf) : Request → Outcome
  | .stat path => stat acc mayCreateRoom s shelf path
  | .fstat key => fstat acc mayCreateRoom d s shelf key
  | .setStat => answer s shelf (.status .ok [])
  | .realPath path => answer s shelf (.path (splitPath path))
  | .openDir path => openDir acc s shelf path
  | .readDir key => readDir acc mayCreateRoom s shelf key
  | .openFile path pflags => openFile acc s shelf path pflags
  | .read key offset len => read s shelf key offset len
  | .write key offset data ok => write s shelf key offset data ok
  | .close key => close d s shelf key
  | .remove path => remove acc s shelf path
  | .rename source target => rename acc d s shelf source target
  | .unsupported => fail s shelf .opUnsupported "Operation not supported"

end Dispatch

end QuackMail.Files.Sftp
